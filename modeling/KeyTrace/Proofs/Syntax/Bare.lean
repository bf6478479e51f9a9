/-
Expressions without their wrappers.

What is kept of an expression is what it says: the kinds and roles of its parts, the
text of its names and literals, the text of its templates between substitutions. Where
it stands is not kept, nor are comments; and of an expression in parentheses or under a
type assertion the expression is kept, in the role of the wrapper.
-/
import KeyTrace.Proofs.Pointwise
import KeyTrace.Proofs.Syntax.Wrappers

namespace KeyTrace

/-- What an expression says. -/
inductive Bare where
  | mk (role : Role) (kind : Kind) (texts : List Text) (children : List Bare)

namespace Bare

def role : Bare → Role
  | mk r _ _ _ => r

def kind : Bare → Kind
  | mk _ k _ _ => k

def texts : Bare → List Text
  | mk _ _ ts _ => ts

def children : Bare → List Bare
  | mk _ _ _ cs => cs

/-- The same in another role. -/
def withRole (r : Role) : Bare → Bare
  | mk _ k ts cs => mk r k ts cs

end Bare

namespace Kind

/-- The kinds of node whose text counts: names and literals. -/
def isToken : Kind → Bool
  | .identifier | .undefinedName | .propertyIdentifier | .privatePropertyIdentifier
  | .shorthandPropertyIdentifier | .shorthandPropertyIdentifierPattern | .typeIdentifier
  | .statementIdentifier | .string | .otherLiteral => true
  | _ => false

/-- The kinds of node that are parts of expressions and no expressions, so that no wrapper is around
one. -/
def isPart : Kind → Bool
  | .comment | .templateSubstitution | .pair | .propertyIdentifier
  | .shorthandPropertyIdentifier => true
  | _ => false

theorem shape_of_isPart {k : Kind} (h : k.isPart = true) : k.shape ≠ .wrapper := by
  unfold shape
  split <;> simp_all [isPart]

end Kind

namespace Node

/-- The text of a template from a cursor to its end, cut at its substitutions. -/
def gaps (s : Source) (stop : Nat) : (cursor : Nat) → List Node → List Text
  | cursor, [] => [s.slice ⟨cursor, stop⟩]
  | cursor, c :: cs =>
    if c.kind = .templateSubstitution then
      s.slice ⟨cursor, c.span.start⟩ :: gaps s stop c.span.stop cs
    else gaps s stop cursor cs

/-- The text that belongs to a node and to none below it, as far as it counts. -/
def texts (s : Source) (n : Node) : List Text :=
  if n.kind = .templateString then gaps s (n.span.stop - 1) (n.span.start + 1) n.allChildren
  else if n.kind.isToken then [n.text s]
  else []

/-- A comment plays no role. -/
def isPassed (n : Node) : Bool := n.isComment && n.role == .none

/-- What stands in the place of a node, by what is under its wrappers. A wrapper around what is no
expression, or around nothing, is kept. -/
def placed (n : Node) : Option Bare → Bare
  | some b =>
    if n.shape = .wrapper ∧ b.kind.isPart then .mk n.role .parenthesizedExpression [] [b]
    else b.withRole n.role
  | none => .mk n.role .parenthesizedExpression [] []

mutual

/-- What an expression says under all of its wrappers. -/
def core (s : Source) : Node → Option Bare
  | .mk r k span cs =>
    if k.shape = .wrapper then
      if k = .typeAssertion then coreLast s cs none else coreFirst s cs
    else some (.mk .none k (texts s (.mk r k span cs)) (bareAll s cs))

def coreFirst (s : Source) : List Node → Option Bare
  | [] => none
  | c :: cs => if c.isComment then coreFirst s cs else core s c

def coreLast (s : Source) : List Node → Option Bare → Option Bare
  | [], found => found
  | c :: cs, found => coreLast s cs (if c.isComment then found else core s c)

/-- What the parts of an expression say. -/
def bareAll (s : Source) : List Node → List Bare
  | [] => []
  | c :: cs => if c.isPassed then bareAll s cs else placed c (core s c) :: bareAll s cs

end

/-- What a part of an expression says in its place. -/
def bare (s : Source) (n : Node) : Bare := placed n (core s n)

variable {s s' : Source} {n n' : Node}

theorem coreFirst_eq (l : List Node) :
    coreFirst s l = (l.filter fun c => !c.isComment).head?.bind (core s) := by
  induction l with
  | nil => rfl
  | cons c l ih =>
    rw [coreFirst, List.filter_cons]
    cases c.isComment with
    | true => exact ih
    | false => rfl

theorem coreLast_eq : ∀ (l : List Node) (found : Option Bare), coreLast s l found =
    ((l.filter fun c => !c.isComment).getLast?.map (core s)).getD found
  | [], _ => rfl
  | c :: l, found => by
    rw [coreLast, coreLast_eq l, List.filter_cons]
    cases c.isComment with
    | true => rfl
    | false =>
      simp only [Bool.not_false, if_true, List.getLast?_cons, Bool.false_eq_true, if_false]
      cases (l.filter fun c => !c.isComment).getLast? <;> rfl

theorem bareAll_eq (l : List Node) :
    bareAll s l = (l.filter fun c => !c.isPassed).map (bare s) := by
  induction l with
  | nil => rfl
  | cons c l ih =>
    rw [bareAll, List.filter_cons, ih]
    cases c.isPassed <;> rfl

/-- What a node that is not wrapped says. -/
def shell (s : Source) (n : Node) : Bare := .mk .none n.kind (texts s n) (bareAll s n.allChildren)

theorem core_of_wrapper (h : n.shape = .wrapper) : core s n = n.wrapped?.bind (core s) := by
  obtain ⟨r, k, span, cs⟩ := n
  rw [core, if_pos (show k.shape = .wrapper from h), wrapped?]
  by_cases hk : k = .typeAssertion
  · rw [if_pos hk, if_pos (show (Node.mk r k span cs).kind = .typeAssertion from hk), coreLast_eq,
      children]
    change Option.getD (Option.map _ (List.getLast? (List.filter _ cs))) none =
      Option.bind (List.getLast? (List.filter _ cs)) _
    cases (cs.filter fun c => !c.isComment).getLast? <;> rfl
  · rw [if_neg hk, if_neg (show (Node.mk r k span cs).kind ≠ .typeAssertion from hk), coreFirst_eq]
    rfl

theorem core_of_not_wrapper (h : n.shape ≠ .wrapper) : core s n = some (shell s n) := by
  obtain ⟨r, k, span, cs⟩ := n
  rw [core, if_neg (show k.shape ≠ .wrapper from h)]
  rfl

/-- What an expression says is what the expression under all of its wrappers says. -/
theorem core_eq (s : Source) (n : Node) : core s n = n.unwrap?.map (shell s) := by
  rw [unwrap?_eq]
  split
  · next h =>
    rw [core_of_wrapper h]
    cases hc : n.wrapped? with
    | none => rfl
    | some c =>
      have := sizeOf_lt (mem_of_wrapped? hc)
      exact core_eq s c
  · next h => exact core_of_not_wrapper h
termination_by sizeOf n

theorem role_placed (n : Node) (o : Option Bare) : (placed n o).role = n.role := by
  cases o with
  | none => rfl
  | some b =>
    obtain ⟨_, _, _, _⟩ := b
    rw [placed]
    split <;> rfl

/-- A part of an expression is such a part by itself, and not by what is under a wrapper. -/
theorem kind_bare_iff {k : Kind} (hk : k.isPart = true) : (bare s n).kind = k ↔ n.kind = k := by
  have hparen : Kind.parenthesizedExpression ≠ k := by
    rintro rfl
    cases hk
  by_cases hs : n.shape = .wrapper
  · have hn : n.kind ≠ k := by
      rintro rfl
      exact Kind.shape_of_isPart hk hs
    refine iff_of_false ?_ hn
    rw [bare]
    cases core s n with
    | none => exact hparen
    | some b =>
      obtain ⟨_, k', _, _⟩ := b
      rw [placed]
      split
      · exact hparen
      · next hb =>
        rintro rfl
        exact hb ⟨hs, hk⟩
  · rw [bare, core_of_not_wrapper hs, placed, if_neg fun h => hs h.1]
    rfl

/-- What a part says by itself, by what it says in its place. -/
def unplaced (b : Bare) : Option Bare :=
  if b.kind = .parenthesizedExpression then b.children.head? else some (b.withRole .none)

theorem unplaced_bare (s : Source) (n : Node) : unplaced (bare s n) = core s n := by
  rw [bare]
  cases hc : core s n with
  | none => rfl
  | some b =>
    rw [core_eq] at hc
    obtain ⟨a, ha, rfl⟩ := Option.map_eq_some_iff.1 hc
    have hs := (unwrap?_induct (P := fun _ => True) (fun _ _ _ _ _ => trivial) ha trivial).2
    rw [placed]
    split
    · rfl
    · exact if_neg fun hk => hs (by
        rw [shape, show a.kind = .parenthesizedExpression from hk]
        rfl)

/-- Parts that say the same in their places say the same by themselves. -/
theorem core_eq_of_bare_eq (h : bare s n = bare s' n') : core s n = core s' n' := by
  rw [← unplaced_bare, h, unplaced_bare]

/-- What the first part of an expression says, by what the expression says in its place. -/
def coreInside (b : Bare) : Option Bare :=
  (b.children.filter fun b => b.kind != .comment).head?.bind unplaced

section Parts

/-- What is in the substitutions of a template, by what all of its parts say. -/
theorem map_bare_substitutions (s : Source) (l : List Node) :
    (l.filter fun c => c.kind = .templateSubstitution).map (bare s) =
      (bareAll s l).filter fun b => b.kind = .templateSubstitution := by
  rw [bareAll_eq, List.filter_map, List.filter_filter]
  congr 1
  refine List.filter_congr fun c _ => ?_
  have hk := kind_bare_iff (s := s) (n := c) (k := .templateSubstitution) rfl
  by_cases h : c.kind = .templateSubstitution
  · simp [h, hk.2 h, isPassed, isComment]
  · simp [h, hk]

/-- The parts of an expression that are not comments, by what all of its parts say. -/
theorem map_bare_children (s : Source) (n : Node) :
    n.children.map (bare s) = (bareAll s n.allChildren).filter fun b => b.kind != .comment := by
  rw [bareAll_eq, List.filter_map, List.filter_filter, children]
  congr 1
  refine List.filter_congr fun c _ => ?_
  have hk : ((bare s c).kind != .comment) = !c.isComment := by
    rw [isComment, bne, Bool.eq_iff_iff]
    simp [kind_bare_iff (s := s) (n := c) (k := .comment) rfl]
  simp only [Function.comp_apply, hk, isPassed]
  cases c.isComment <;> simp

theorem coreInside_bare {k : Kind} (hk : k.isPart = true) (hn : n.kind = k) :
    coreInside (bare s n) = n.firstChild?.bind (core s) := by
  have hs : n.shape ≠ .wrapper := by
    rw [shape, hn]
    exact Kind.shape_of_isPart hk
  rw [bare, core_of_not_wrapper hs, placed, if_neg fun h => hs h.1]
  change ((bareAll s n.allChildren).filter fun b => b.kind != .comment).head?.bind unplaced = _
  rw [← map_bare_children, List.head?_map, firstChild?]
  cases n.children.head? with
  | none => rfl
  | some c => exact unplaced_bare s c

/-- The part in a role, by what all parts say. -/
theorem map_bare_child? (s : Source) (n : Node) {r : Role} (hr : r ≠ .none) :
    (n.child? r).map (bare s) = (bareAll s n.allChildren).find? fun b => b.role == r := by
  rw [bareAll_eq, List.find?_map, List.find?_filter, child?]
  congr 1
  congr 1
  funext c
  simp only [Function.comp_apply, bare, role_placed, isPassed]
  by_cases h : c.role = r
  · simp [h, hr]
  · simp [h]

/-- Expressions without wrappers that say the same are of a kind. -/
theorem kind_of_shell (h : shell s n = shell s' n') : n.kind = n'.kind := congrArg Bare.kind h

theorem texts_of_shell (h : shell s n = shell s' n') : texts s n = texts s' n' := congrArg Bare.texts h

theorem bareAll_of_shell (h : shell s n = shell s' n') :
    bareAll s n.allChildren = bareAll s' n'.allChildren := congrArg Bare.children h

theorem text_of_shell (h : shell s n = shell s' n') (hk : n.kind.isToken = true) :
    n.text s = n'.text s' := by
  have hn : n.kind ≠ .templateString := by
    rintro ht
    rw [ht] at hk
    cases hk
  have ht := texts_of_shell h
  rw [texts, texts, if_neg hn, if_pos hk, if_neg (kind_of_shell h ▸ hn),
    if_pos (kind_of_shell h ▸ hk)] at ht
  exact (List.cons.inj ht).1

/-- The parts of expressions that say the same go together. -/
theorem forall₂_children (h : bareAll s n.allChildren = bareAll s' n'.allChildren) :
    List.Forall₂ (fun c c' => bare s c = bare s' c') n.children n'.children := by
  have hm : n.children.map (bare s) = n'.children.map (bare s') := by
    rw [map_bare_children, map_bare_children, h]
  rw [← List.forall₂_eq_eq_eq, List.forall₂_map_left_iff, List.forall₂_map_right_iff] at hm
  exact hm

theorem map_bare_child?_eq (h : bareAll s n.allChildren = bareAll s' n'.allChildren) {r : Role}
    (hr : r ≠ .none) : (n.child? r).map (bare s) = (n'.child? r).map (bare s') := by
  rw [map_bare_child? s n hr, map_bare_child? s' n' hr, h]

/-- What a part of an expression is is not wrapped. -/
theorem shell_of_bare {k : Kind} (hk : k.isPart = true) (hn : n.kind = k)
    (h : bare s n = bare s' n') : n'.kind = k ∧ shell s n = shell s' n' := by
  have hn' : n'.kind = k := (kind_bare_iff hk).1 (h ▸ (kind_bare_iff hk).2 hn)
  have hs := Kind.shape_of_isPart hk
  have hc := core_eq_of_bare_eq h
  rw [core_of_not_wrapper (show n.kind.shape ≠ .wrapper from hn ▸ hs),
    core_of_not_wrapper (show n'.kind.shape ≠ .wrapper from hn' ▸ hs)] at hc
  exact ⟨hn', Option.some.inj hc⟩

end Parts

/-- What an optional expression says. -/
def coreOf (s : Source) (n : Option Node) : Option Bare := n.bind (core s)

theorem coreOf_eq (s : Source) (n : Option Node) : coreOf s n = (unwrapOf n).map (shell s) := by
  cases n with
  | none => rfl
  | some n => exact core_eq s n

theorem coreOf_eq_of_bare : ∀ {o o' : Option Node}, o.map (bare s) = o'.map (bare s') →
    coreOf s o = coreOf s' o'
  | none, none, _ => rfl
  | some _, some _, h => core_eq_of_bare_eq (Option.some.inj h)

/-- Of expressions that say the same, what is under their wrappers says the same, or nothing is. -/
theorem unwrapOf_rel {o o' : Option Node} (h : coreOf s o = coreOf s' o') :
    Option.Rel (fun a a' => shell s a = shell s' a') (unwrapOf o) (unwrapOf o') := by
  rw [coreOf_eq, coreOf_eq] at h
  exact Pointwise.option_of_map_eq (fun _ _ h => h) h

end Node

end KeyTrace
