/-
The parts of an expression by their shapes, and what lies under parentheses and type
assertions, one wrapper at a time.
-/
import KeyTrace.Proofs.Syntax.Places
import KeyTrace.Syntax.Shape

namespace KeyTrace.Node

section Shapes

variable {n : Node}

theorem kind_of_shape_string (h : n.shape = .string) : n.kind = .string := by
  unfold shape Kind.shape at h
  split at h <;> first | assumption | cases h

theorem kind_of_shape_template (h : n.shape = .template) : n.kind = .templateString := by
  unfold shape Kind.shape at h
  split at h <;> first | assumption | cases h

theorem kind_of_shape_identifier (h : n.shape = .identifier) : n.kind = .identifier := by
  unfold shape Kind.shape at h
  split at h <;> first | assumption | cases h

theorem kind_of_shape_member (h : n.shape = .member) : n.kind = .memberExpression := by
  unfold shape Kind.shape at h
  split at h <;> first | assumption | cases h

end Shapes

theorem unwrapFirst?_eq (l : List Node) :
    unwrapFirst? l = (l.filter fun c => !c.isComment).head?.bind unwrap? := by
  induction l with
  | nil => rfl
  | cons c l ih =>
    rw [unwrapFirst?, List.filter_cons]
    cases c.isComment with
    | true => exact ih
    | false => rfl

theorem unwrapLast?_eq : ∀ (l : List Node) (found : Option Node), unwrapLast? l found =
    ((l.filter fun c => !c.isComment).getLast?.map unwrap?).getD found
  | [], _ => rfl
  | c :: l, found => by
    rw [unwrapLast?, unwrapLast?_eq l, List.filter_cons]
    cases c.isComment with
    | true => rfl
    | false =>
      simp only [Bool.not_false, if_true, List.getLast?_cons, Bool.false_eq_true, if_false]
      cases (l.filter fun c => !c.isComment).getLast? <;> rfl

/-- Under all wrappers of a wrapper is what is under all wrappers of the expression in it. -/
theorem unwrap?_eq (n : Node) :
    n.unwrap? = if n.shape = .wrapper then n.wrapped?.bind unwrap? else some n := by
  obtain ⟨r, k, s, cs⟩ := n
  rw [unwrap?]
  by_cases hs : k.shape = .wrapper
  · rw [if_pos hs, if_pos (show (Node.mk r k s cs).shape = .wrapper from hs), wrapped?]
    by_cases hk : k = .typeAssertion
    · rw [if_pos hk, if_pos (show (Node.mk r k s cs).kind = .typeAssertion from hk),
        unwrapLast?_eq, children]
      change Option.getD (Option.map _ (List.getLast? (List.filter _ cs))) none =
        Option.bind (List.getLast? (List.filter _ cs)) _
      cases (cs.filter fun c => !c.isComment).getLast? <;> rfl
    · rw [if_neg hk, if_neg (show (Node.mk r k s cs).kind ≠ .typeAssertion from hk),
        unwrapFirst?_eq]
      rfl
  · rw [if_neg hs, if_neg (show (Node.mk r k s cs).shape ≠ .wrapper from hs)]

theorem unwrap?_of_shape {n : Node} (h : n.shape ≠ .wrapper) : n.unwrap? = some n := by
  rw [unwrap?_eq, if_neg h]

theorem mem_children {n c : Node} (h : c ∈ n.children) : c ∈ n.allChildren := (List.mem_filter.1 h).1

theorem mem_of_child? {n c : Node} {r : Role} (h : n.child? r = some c) : c ∈ n.allChildren :=
  List.mem_of_find?_eq_some h

theorem mem_of_firstChild? {n c : Node} (h : n.firstChild? = some c) : c ∈ n.allChildren :=
  mem_children (List.mem_of_head? h)

theorem mem_of_wrapped? {n c : Node} (h : n.wrapped? = some c) : c ∈ n.allChildren := by
  unfold wrapped? at h
  split at h
  · exact mem_children (List.mem_of_getLast? h)
  · exact mem_children (List.mem_of_head? h)

/-- What goes from every wrapper to the expression in it goes to the one under all wrappers, which is
not wrapped itself. -/
theorem unwrap?_induct {P : Node → Prop}
    (hP : ∀ n c, n.shape = .wrapper → c ∈ n.allChildren → P n → P c) {n a : Node}
    (h : n.unwrap? = some a) (hn : P n) : P a ∧ a.shape ≠ .wrapper := by
  rw [unwrap?_eq] at h
  split at h
  · next hs =>
    obtain ⟨c, hc, h⟩ := Option.bind_eq_some_iff.1 h
    have hlt := sizeOf_lt (mem_of_wrapped? hc)
    exact unwrap?_induct hP h (hP n c hs (mem_of_wrapped? hc) hn)
  · next hs =>
    cases h
    exact ⟨hn, hs⟩
termination_by sizeOf n

end KeyTrace.Node
