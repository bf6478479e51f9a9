/-
Folding under a congruence of computations: what two expressions fold to is related
if what their parts fold to is. Each result about all that folding does, such as what
it can fail with, what it asks for or what it does not see, takes this walk along an
expression from here.
-/
import KeyTrace.Fold.Constant
import KeyTrace.Proofs.Analysis.Outcomes
import KeyTrace.Proofs.Pointwise

namespace KeyTrace.Fold

section Properties

/-- The name of a property that a record can have: that of a pair with a plain name, or a
shorthand. -/
def propertyName? (source : Source) (p : Node) : Option Text :=
  match p.kind with
  | .shorthandPropertyIdentifier => some (p.text source)
  | .pair =>
    match p.child? .key with
    | some k => if k.kind = .propertyIdentifier then some (k.text source) else none
    | none => none
  | _ => none

/-- The value of a property. -/
def propertyValue (f : Folder) (p : Node) : Traced Folded :=
  if p.kind = .shorthandPropertyIdentifier then f.name p else f.constant (p.child? .value)

/-- A record with a property, if its value is a string. -/
def keepString (name : Text) (r : Record) : Folded → Record
  | .string s => Named.set name s r
  | _ => r

theorem foldProperty_eq (source : Source) (f : Folder) (r : Record) (p : Node) :
    foldProperty source f r p =
      match propertyName? source p with
      | none => pure r
      | some name => propertyValue f p >>= fun v => pure (keepString name r v) := by
  unfold foldProperty propertyName? propertyValue
  cases hk : p.kind with
  | shorthandPropertyIdentifier =>
    dsimp only
    rw [if_pos rfl]
    rfl
  | pair =>
    dsimp only
    cases p.child? .key with
    | none => rfl
    | some k =>
      dsimp only
      split
      · rw [if_neg (by simp)]
        rfl
      · rfl
  | _ => rfl

end Properties

section Related

variable {R : ∀ {α : Type}, Traced α → Traced α → Prop} {s s' : Source} {f f' : Folder}

theorem foldElements_related (hR : Traced.Congruence R) {element element' : Node → Traced Element} :
    ∀ {l l' : List Node} (g : Gathered),
    List.Forall₂ (fun c c' => R (element c) (element' c')) l l' →
    R (foldElements element g l) (foldElements element' g l')
  | _, _, g, .nil => hR.pure _
  | _, _, g, .cons h hl => hR.bind h fun e _ => by
    cases g.add e with
    | none => exact hR.pure _
    | some g' => exact foldElements_related hR g' hl

theorem joinTemplate_related (hR : Traced.Congruence R)
    {constant constant' : Option Node → Traced Folded} :
    ∀ {l l' : List (Option Node × Text)} (soFar : Text),
    List.Forall₂ (fun p p' => R (constant p.1) (constant' p'.1) ∧ p.2 = p'.2) l l' →
    R (joinTemplate constant soFar l) (joinTemplate constant' soFar l')
  | _, _, soFar, .nil => hR.pure _
  | (e, q) :: _, (e', q') :: _, soFar, .cons h hl => by
    obtain ⟨h, rfl⟩ := h
    refine hR.bind h fun v _ => ?_
    cases v with
    | string t => exact joinTemplate_related hR _ hl
    | dynamic | strings | records => exact hR.pure _

/-- Properties add the same to a record if they have the same name and related values, or no
name. -/
theorem foldRecord_related (hR : Traced.Congruence R) {o o' : Node}
    (h : List.Forall₂ (fun p p' => propertyName? s' p' = propertyName? s p ∧
      (propertyName? s p ≠ none → R (propertyValue f p) (propertyValue f' p')))
      o.children o'.children) :
    R (foldRecord s f o) (foldRecord s' f' o') := by
  refine hR.foldlM [] (h.imp fun p p' hp r => ?_)
  obtain ⟨hname, hvalue⟩ := hp
  rw [foldProperty_eq, foldProperty_eq, hname]
  cases hn : propertyName? s p with
  | none => exact hR.pure r
  | some name => exact hR.bind (hvalue (by rw [hn]; nofun)) fun v _ => hR.pure _

/-- An element is read as an expression and, if that is no string, as an object literal. -/
theorem foldElement_related (hR : Traced.Congruence R) {c c' : Node}
    (hc : R (f.constant (some c)) (f'.constant (some c')))
    (hu : Option.Rel (fun o o' => o'.shape = o.shape ∧
      (o.shape = .object → R (foldRecord s f o) (foldRecord s' f' o'))) c.unwrap? c'.unwrap?) :
    R (foldElement s f c) (foldElement s' f' c') := by
  refine hR.bind hc fun v _ => ?_
  cases v with
  | string t => exact hR.pure _
  | dynamic | strings | records =>
    generalize c.unwrap? = o at hu
    generalize c'.unwrap? = o' at hu
    cases hu with
    | none => exact hR.pure _
    | some ho =>
      obtain ⟨hs, hrecord⟩ := ho
      dsimp only
      rw [hs]
      split
      · next hobject => exact hR.bind (hrecord hobject) fun r _ => hR.pure _
      · exact hR.pure _

/-- The parts that two expressions are folded by are related. -/
structure PartsRelated (R : ∀ {α : Type}, Traced α → Traced α → Prop) (ctx ctx' : Context)
    (below : Context → Folder) (a a' : Node) : Prop where
  shape : a'.shape = a.shape
  string : a.shape = .string → R (Traced.ofCooked (Literal.stringValue ctx.source a))
    (Traced.ofCooked (Literal.stringValue ctx'.source a'))
  array : a.shape = .array → List.Forall₂ (fun c c' => R (foldElement ctx.source (below ctx) c)
    (foldElement ctx'.source (below ctx') c')) a.children a'.children
  identifier : a.shape = .identifier → R (foldName (fun c => (below c).constant) ctx a)
    (foldName (fun c => (below c).constant) ctx' a')
  template : a.shape = .template → R (foldTemplate ctx.source (below ctx).constant a)
    (foldTemplate ctx'.source (below ctx').constant a')
  binary : a.shape = .binary → a'.kind = a.kind
  left : a.kind = .binaryExpression .plus →
    R ((below ctx).constant (a.child? .left)) ((below ctx').constant (a'.child? .left))
  right : a.kind = .binaryExpression .plus →
    R ((below ctx).constant (a.child? .right)) ((below ctx').constant (a'.child? .right))

theorem foldShape_related (hR : Traced.Congruence R) {ctx ctx' : Context} {below : Context → Folder}
    {a a' : Node} (h : PartsRelated R ctx ctx' below a a') :
    R (foldShape ctx below a) (foldShape ctx' below a') := by
  unfold foldShape
  rw [h.shape]
  cases hs : a.shape with
  | string => exact hR.bind (h.string hs) fun t _ => hR.pure _
  | array => exact foldElements_related hR _ (h.array hs)
  | identifier => exact h.identifier hs
  | template => exact hR.bind (h.template hs) fun t _ => hR.pure _
  | binary =>
    dsimp only
    rw [h.binary hs]
    split
    · next hplus =>
      refine hR.bind (h.left hplus) fun l _ => ?_
      cases l with
      | string l =>
        refine hR.bind (h.right hplus) fun r _ => ?_
        cases r with
        | string r => exact hR.pure _
        | dynamic | strings | records => exact hR.pure _
      | dynamic | strings | records => exact hR.pure _
    · exact hR.pure _
  | _ => exact hR.pure _

/-- With one step more, what is folded of two expressions is related if the parts of what is under
their wrappers are. -/
theorem next_related (hR : Traced.Congruence R) {ctx ctx' : Context} {below : Context → Folder}
    {n n' : Option Node}
    (h : Option.Rel (PartsRelated R ctx ctx' below) (unwrapOf n) (unwrapOf n')) :
    R ((Folder.next below ctx).constant n) ((Folder.next below ctx').constant n') := by
  simp only [Folder.next]
  generalize unwrapOf n = a at h
  generalize unwrapOf n' = a' at h
  cases h with
  | none => exact hR.pure _
  | some h => exact foldShape_related hR h

end Related

end KeyTrace.Fold
