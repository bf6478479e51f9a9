/-
What folding comes to, by what the parts of an expression come to: the substitutions of a
template, the elements of an array, and the shapes of expressions.
-/
import KeyTrace.Fold.Constant
import KeyTrace.Proofs.Analysis.Outcomes

namespace KeyTrace

/-- The text of a template with strings for its expressions. -/
def Literal.Template.fill (t : Template) (values : List Text) : Text :=
  t.first ++ (List.zipWith (fun part value => value ++ part.2) t.rest values).flatten

namespace Fold

section Templates

variable {source : Source} {constant : Option Node → Traced Folded}

theorem joinTemplate_eq_some_iff : ∀ {l : List (Option Node × Text)} {soFar s : Text},
    (joinTemplate constant soFar l).outcome = .ok (some s) ↔
      ∃ values, List.Forall₂ (fun part v => (constant part.1).outcome = .ok (.string v)) l values ∧
        s = soFar ++ (List.zipWith (fun part v => v ++ part.2) l values).flatten
  | [], soFar, s => by
    simp only [joinTemplate, Traced.pure_outcome, Except.ok.injEq, Option.some.injEq,
      List.forall₂_nil_left_iff, exists_eq_left, List.zipWith_nil_left, List.flatten_nil,
      List.append_nil, eq_comm]
  | (e, q) :: l, soFar, s => by
    rw [joinTemplate, Traced.bind_ok_iff]
    constructor
    · rintro ⟨v, hv, h⟩
      cases v with
      | string v =>
        obtain ⟨values, hvalues, rfl⟩ := joinTemplate_eq_some_iff.1 h
        exact ⟨v :: values, .cons hv hvalues, by simp⟩
      | dynamic | strings | records => cases h
    · rintro ⟨_, hvalues, rfl⟩
      cases hvalues with
      | @cons _ v _ values hv hvalues =>
        exact ⟨.string v, hv, joinTemplate_eq_some_iff.2 ⟨values, hvalues, by simp⟩⟩

theorem foldTemplate_eq_some_iff {n : Node} {s : Text} :
    (foldTemplate source constant n).outcome = .ok (some s) ↔
      ∃ t values, Literal.Template.ofNode source n = .ok t ∧
        List.Forall₂ (fun e v => (constant e).outcome = .ok (.string v)) t.expressions values ∧
        s = t.fill values := by
  simp only [foldTemplate, Traced.bind_ok_iff, Traced.ofCooked_ok_iff, joinTemplate_eq_some_iff,
    Literal.Template.expressions, List.forall₂_map_left_iff, Literal.Template.fill,
    exists_and_left]

theorem joinTemplate_returns : ∀ {l : List (Option Node × Text)} (soFar : Text),
    (∀ part ∈ l, ∃ v, (constant part.1).outcome = .ok v) →
    ∃ o, (joinTemplate constant soFar l).outcome = .ok o
  | [], soFar, _ => ⟨_, rfl⟩
  | (e, q) :: l, soFar, h => by
    obtain ⟨v, hv⟩ := h (e, q) List.mem_cons_self
    rw [joinTemplate, Traced.bind_of_ok hv]
    cases v with
    | string v => exact joinTemplate_returns _ fun part hp => h part (List.mem_cons_of_mem _ hp)
    | dynamic | strings | records => exact ⟨_, rfl⟩

end Templates

section Elements

variable {source : Source} {f : Folder} {c : Node}

theorem foldElement_string_iff {s : Text} :
    (foldElement source f c).outcome = .ok (.string s) ↔
      (f.constant (some c)).outcome = .ok (.string s) := by
  constructor
  · intro h
    obtain ⟨v, hv, h⟩ := Traced.bind_ok_iff.1 h
    cases v with
    | string t =>
      cases h
      exact hv
    | dynamic | strings | records =>
      dsimp only at h
      split at h
      · split at h
        · obtain ⟨r, -, h⟩ := Traced.bind_ok_iff.1 h
          cases h
        · cases h
      · cases h
  · exact fun h => Traced.bind_ok_iff.2 ⟨_, h, rfl⟩

theorem isObject_of_foldElement {r : Record}
    (h : (foldElement source f c).outcome = .ok (.record r)) :
    ∃ o, c.unwrap? = some o ∧ o.shape = .object := by
  obtain ⟨v, hv, h⟩ := Traced.bind_ok_iff.1 h
  cases v with
  | string t => cases h
  | dynamic | strings | records =>
    dsimp only at h
    split at h
    · next o hu =>
      split at h
      · next ho => exact ⟨o, hu, ho⟩
      · cases h
    · cases h

/-- An object literal, of which nothing is known as an expression, comes to its record. -/
theorem foldElement_object {o : Node} (hc : (f.constant (some c)).outcome = .ok .dynamic)
    (hu : c.unwrap? = some o) (ho : o.shape = .object) :
    (foldElement source f c).outcome =
      (foldRecord source f o >>= fun r => pure (Element.record r)).outcome := by
  rw [foldElement, Traced.bind_of_ok hc]
  simp only [hu, ho, if_true]

end Elements

section Shapes

/-- What an expression that is not wrapped comes to, by its shape. -/
inductive ByShape (ctx : Context) (f : Context → Folder) (a : Node) : Folded → Prop
  | string {s : Text} : a.shape = .string → Literal.stringValue ctx.source a = .ok s →
      ByShape ctx f a (.string s)
  | array {v : Folded} : a.shape = .array →
      (foldElements (foldElement ctx.source (f ctx)) .nothing a.children).outcome = .ok v →
      ByShape ctx f a v
  | identifier {v : Folded} : a.shape = .identifier →
      (foldName (fun c => (f c).constant) ctx a).outcome = .ok v → ByShape ctx f a v
  | template {o : Option Text} : a.shape = .template →
      (foldTemplate ctx.source (f ctx).constant a).outcome = .ok o → ByShape ctx f a (ofString? o)
  | plus {l r : Text} : a.kind = .binaryExpression .plus →
      ((f ctx).constant (a.child? .left)).outcome = .ok (.string l) →
      ((f ctx).constant (a.child? .right)).outcome = .ok (.string r) →
      ByShape ctx f a (.string (l ++ r))
  | left {v : Folded} : a.kind = .binaryExpression .plus →
      ((f ctx).constant (a.child? .left)).outcome = .ok v → (∀ l, v ≠ .string l) →
      ByShape ctx f a .dynamic
  | right {l : Text} {v : Folded} : a.kind = .binaryExpression .plus →
      ((f ctx).constant (a.child? .left)).outcome = .ok (.string l) →
      ((f ctx).constant (a.child? .right)).outcome = .ok v → (∀ r, v ≠ .string r) →
      ByShape ctx f a .dynamic
  | other : a.shape ∉ [.string, .array, .identifier, .template] →
      a.kind ≠ .binaryExpression .plus → ByShape ctx f a .dynamic

variable {ctx : Context} {f : Context → Folder} {a : Node}

theorem shape_of_plus (h : a.kind = .binaryExpression .plus) : a.shape = .binary := by
  rw [Node.shape, h]
  rfl

theorem byShape_of_foldShape {v : Folded} (h : (foldShape ctx f a).outcome = .ok v) :
    ByShape ctx f a v := by
  have hother (hs : a.shape ∉ [.string, .array, .identifier, .template, .binary]) :
      ByShape ctx f a .dynamic := by
    refine .other (fun hm => hs ?_) fun hk => hs (by rw [shape_of_plus hk]; decide)
    exact List.mem_append_left [.binary] hm
  unfold foldShape at h
  cases hs : a.shape with
  | string =>
    rw [hs] at h
    obtain ⟨s, hv, h⟩ := Traced.bind_ok_iff.1 h
    cases h
    exact .string hs (Traced.ofCooked_ok_iff.1 hv)
  | array =>
    rw [hs] at h
    exact .array hs h
  | identifier =>
    rw [hs] at h
    exact .identifier hs h
  | template =>
    rw [hs] at h
    obtain ⟨o, ho, h⟩ := Traced.bind_ok_iff.1 h
    cases h
    exact .template hs ho
  | binary =>
    rw [hs] at h
    dsimp only at h
    split at h
    · next hk =>
      obtain ⟨l, hl, h⟩ := Traced.bind_ok_iff.1 h
      cases l with
      | string l =>
        obtain ⟨r, hr, h⟩ := Traced.bind_ok_iff.1 h
        cases r with
        | string r =>
          cases h
          exact .plus hk hl hr
        | dynamic | strings | records =>
          cases h
          exact .right hk hl hr nofun
      | dynamic | strings | records =>
        cases h
        exact .left hk hl nofun
    · next hk =>
      cases h
      exact .other (by rw [hs]; decide) hk
  | wrapper | object | call | await | member | other =>
    rw [hs] at h
    cases h
    exact hother (by rw [hs]; decide)

theorem foldShape_of_byShape {v : Folded} (h : ByShape ctx f a v) :
    (foldShape ctx f a).outcome = .ok v := by
  unfold foldShape
  cases h with
  | string hs hv =>
    rw [hs]
    exact Traced.bind_ok_iff.2 ⟨_, Traced.ofCooked_ok_iff.2 hv, rfl⟩
  | array hs hv | identifier hs hv =>
    rw [hs]
    exact hv
  | template hs ho =>
    rw [hs]
    exact Traced.bind_ok_iff.2 ⟨_, ho, rfl⟩
  | plus hk hl hr =>
    rw [shape_of_plus hk]
    simp only [hk, if_true]
    exact Traced.bind_ok_iff.2 ⟨_, hl, Traced.bind_ok_iff.2 ⟨_, hr, rfl⟩⟩
  | @left v hk hl hne =>
    rw [shape_of_plus hk]
    simp only [hk, if_true]
    refine Traced.bind_ok_iff.2 ⟨v, hl, ?_⟩
    cases v with
    | string l => exact absurd rfl (hne l)
    | dynamic | strings | records => rfl
  | @right l v hk hl hr hne =>
    rw [shape_of_plus hk]
    simp only [hk, if_true]
    refine Traced.bind_ok_iff.2 ⟨_, hl, Traced.bind_ok_iff.2 ⟨v, hr, ?_⟩⟩
    cases v with
    | string r => exact absurd rfl (hne r)
    | dynamic | strings | records => rfl
  | other hs hk =>
    cases h : a.shape with
    | string | array | identifier | template => exact absurd (by rw [h]; decide) hs
    | binary => simp only [hk, if_false, Traced.pure_outcome]
    | _ => rfl

/-- Folding an expression comes to what its shape and its parts say. -/
theorem foldShape_ok_iff {v : Folded} : (foldShape ctx f a).outcome = .ok v ↔ ByShape ctx f a v :=
  ⟨byShape_of_foldShape, foldShape_of_byShape⟩

end Shapes

end Fold
end KeyTrace
