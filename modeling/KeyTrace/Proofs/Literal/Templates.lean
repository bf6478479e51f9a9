/-
Templates by the raw text between their substitutions: it is cooked piece by piece, and
what stands in the substitutions is kept as it is.
-/
import KeyTrace.Literal.Value
import KeyTrace.Proofs.Syntax.Bare

namespace KeyTrace.Literal.Template

/-- The parts of a template from its raw text and what stands in its substitutions. -/
def assemble {α : Type} : List Text → List α → Except InvalidEscape (Text × List (α × Text))
  | g :: gs, e :: es => do
    let text ← cookTemplate g
    let (next, rest) ← assemble gs es
    return (text, (e, next) :: rest)
  | g :: _, [] => do return (← cookTemplate g, [])
  | [], _ => return ([], [])

/-- What stands in the substitutions of a template. -/
def substitutions (l : List Node) : List (Option Node) :=
  (l.filter fun c => c.kind = .templateSubstitution).map Node.firstChild?

theorem partsFrom_eq (s : Source) (stop : Nat) : ∀ (l : List Node) (cursor : Nat),
    partsFrom s stop cursor l = assemble (Node.gaps s stop cursor l) (substitutions l)
  | [], cursor => rfl
  | c :: l, cursor => by
    rw [partsFrom, Node.gaps, substitutions, List.filter_cons]
    by_cases hk : c.kind = .templateSubstitution
    · rw [if_pos hk, if_pos hk, if_pos (by simpa using hk), List.map_cons, assemble,
        partsFrom_eq s stop l]
      rfl
    · rw [if_neg hk, if_neg hk, if_neg (by simpa using hk), partsFrom_eq s stop l]
      rfl

theorem assemble_map {α β : Type} (f : α → β) : ∀ (gs : List Text) (es : List α),
    assemble gs (es.map f) = (assemble gs es).map fun r => (r.1, r.2.map fun p => (f p.1, p.2))
  | g :: gs, e :: es => by
    rw [List.map_cons, assemble, assemble, assemble_map f gs es]
    cases cookTemplate g with
    | error _ => rfl
    | ok _ => cases assemble gs es <;> rfl
  | g :: gs, [] => by
    rw [List.map_nil, assemble, assemble]
    cases cookTemplate g <;> rfl
  | [], _ => rfl

/-- The raw text of a template before, between and behind its substitutions. -/
def rawTexts (s : Source) (n : Node) : List Text :=
  Node.gaps s (n.span.stop - 1) (n.span.start + 1) n.allChildren

variable {s : Source} {n : Node} {t : Template}

theorem ofNode_eq (s : Source) (n : Node) : ofNode s n =
    (assemble (rawTexts s n) (substitutions n.allChildren)).map fun p => ⟨p.1, p.2⟩ := by
  rw [ofNode, partsFrom_eq, rawTexts]
  cases assemble (Node.gaps s (n.span.stop - 1) (n.span.start + 1) n.allChildren)
    (substitutions n.allChildren) <;> rfl

/-- There is a text more than there are substitutions. -/
theorem length_gaps (s : Source) (stop : Nat) : ∀ (l : List Node) (cursor : Nat),
    (Node.gaps s stop cursor l).length = (substitutions l).length + 1
  | [], _ => rfl
  | c :: l, cursor => by
    rw [Node.gaps, substitutions, List.filter_cons]
    by_cases hk : c.kind = .templateSubstitution
    · rw [if_pos hk, if_pos (by simpa using hk), List.length_cons, length_gaps s stop l]
      rfl
    · rw [if_neg hk, if_neg (by simpa using hk), length_gaps s stop l]
      rfl

theorem map_texts_assemble {α : Type} : ∀ {gs : List Text} {es : List α},
    gs.length = es.length + 1 →
    (assemble gs es).map (fun p => p.1 :: p.2.map (·.2)) = gs.mapM cookTemplate
  | [g], [], _ => by
    rw [assemble, List.mapM_cons, List.mapM_nil]
    cases cookTemplate g <;> rfl
  | g :: h :: gs, e :: es, hlen => by
    have ih := map_texts_assemble (Nat.succ.inj hlen : (h :: gs).length = es.length + 1)
    rw [assemble, List.mapM_cons, ← ih]
    cases cookTemplate g with
    | error _ => rfl
    | ok _ => cases assemble (h :: gs) es <;> rfl

theorem expressions_of_assemble {α : Type} : ∀ {gs : List Text} {es : List α}
    {r : Text × List (α × Text)}, gs.length = es.length + 1 → assemble gs es = .ok r →
    r.2.map (·.1) = es
  | [g], [], r, _, h => by
    rw [assemble] at h
    cases hg : cookTemplate g with
    | error _ =>
      rw [hg] at h
      cases h
    | ok _ =>
      rw [hg] at h
      cases h
      rfl
  | g :: h :: gs, e :: es, r, hlen, hr => by
    rw [assemble] at hr
    cases hg : cookTemplate g with
    | error _ =>
      rw [hg] at hr
      cases hr
    | ok _ =>
      cases hrest : assemble (h :: gs) es with
      | error _ =>
        rw [hg, hrest] at hr
        cases hr
      | ok r' =>
        rw [hg, hrest] at hr
        cases hr
        exact congrArg (e :: ·) (expressions_of_assemble (Nat.succ.inj hlen) hrest)

/-- The quasis of a template are its raw texts, cooked. -/
theorem quasis_ofNode (s : Source) (n : Node) :
    (ofNode s n).map quasis = (rawTexts s n).mapM cookTemplate := by
  rw [ofNode_eq, rawTexts, ← map_texts_assemble (length_gaps s _ n.allChildren _)]
  cases assemble (Node.gaps s (n.span.stop - 1) (n.span.start + 1) n.allChildren)
    (substitutions n.allChildren) <;> rfl

/-- The expressions of a template are what stands in its substitutions. -/
theorem expressions_ofNode (h : ofNode s n = .ok t) : t.expressions = substitutions n.allChildren := by
  rw [ofNode_eq] at h
  cases hr : assemble (rawTexts s n) (substitutions n.allChildren) with
  | error _ =>
    rw [hr] at h
    cases h
  | ok r =>
    rw [hr] at h
    cases h
    exact expressions_of_assemble (length_gaps s _ n.allChildren _) hr

end KeyTrace.Literal.Template
