/-
Shorthand properties fold as their longhand.

The name of a shorthand is followed without a look at the depth, the value of a pair is
an expression like any other. Where no step is left, the importer is asked for what a
shorthand imports, and what it answers is not looked into.
-/
import KeyTrace.Proofs.Fold.Arrays
import KeyTrace.Proofs.Fold.Erasure
import KeyTrace.Proofs.Syntax.Longhand

namespace KeyTrace

open Bare (SpelledOut)
open Node (bare bareAll core coreOf shell)

namespace Traced

variable {α β : Type} {P : Prop} {x x' : Traced α}

/-- The second computation comes to what the first one comes to, or the first one fails where a
condition does not hold. -/
def Keeps (P : Prop) (x x' : Traced α) : Prop :=
  x.outcome = x'.outcome ∨ ¬ P ∧ ∃ e, x.outcome = .error e

namespace Keeps

theorem refl (x : Traced α) : Keeps P x x := .inl rfl

theorem eq (h : Keeps P x x') (hP : P) : x.outcome = x'.outcome :=
  h.resolve_right fun hn => hn.1 hP

theorem ok (h : Keeps P x x') {a : α} (ha : x.outcome = .ok a) : x'.outcome = .ok a := by
  rcases h with h | ⟨-, e, he⟩
  · rw [← h, ha]
  · rw [ha] at he
    cases he

theorem bind {k k' : α → Traced β} (hx : Keeps P x x')
    (hk : ∀ a, x.outcome = .ok a → Keeps P (k a) (k' a)) : Keeps P (x >>= k) (x' >>= k') := by
  cases h : x.outcome with
  | ok a =>
    have hk := hk a h
    rw [Keeps, bind_of_ok h, bind_of_ok (hx.ok h)]
    exact hk
  | error e =>
    rcases hx with hx | ⟨hP, -⟩
    · exact .inl (by rw [bind_of_error h, bind_of_error (hx ▸ h)])
    · exact .inr ⟨hP, e, by rw [bind_of_error h]⟩

theorem congruence (P : Prop) : Congruence (Keeps P) := ⟨fun _ => refl _, bind⟩

end Keeps

end Traced

namespace Fold

open Traced (Keeps)

/-- The value of an exported variable is spelled out, where there is one. -/
inductive SpelledOutExport : (v v' : Except Failure (Option (Option Bare))) → Prop
  | failed (e : Failure) : SpelledOutExport (.error e) (.error e)
  | missing : SpelledOutExport (.ok none) (.ok none)
  | value {v v' : Option Bare} (h : Option.Rel Bare.SpelledOut v v') :
      SpelledOutExport (.ok (some v)) (.ok (some v'))

/-- The value of a name is spelled out, where there is one. -/
inductive Meaning.SpelledOut : Meaning → Meaning → Prop
  | unknown : SpelledOut .unknown .unknown
  | declared {v v' : Option Bare} (h : Option.Rel Bare.SpelledOut v v') :
      SpelledOut (.declared v) (.declared v')
  | imported {v v' : Except Failure (Option (Option Bare))} (h : SpelledOutExport v v') :
      SpelledOut (.imported v) (.imported v')

/-- The values of names are spelled out, those of variables and those of exported ones. -/
def Context.SpelledOut (ctx ctx' : Context) : Prop :=
  ∀ name, (ctx.meaning name).SpelledOut (ctx'.meaning name)

theorem Context.SpelledOut.refl (ctx : Context) : ctx.SpelledOut ctx := by
  intro name
  cases ctx.meaning name with
  | unknown => exact .unknown
  | declared v => exact .declared (Bare.spelledOut_refl_option v)
  | imported v =>
    rcases v with e | _ | v
    · exact .imported (.failed e)
    · exact .imported .missing
    · exact .imported (.value (Bare.spelledOut_refl_option v))

theorem spelledOut_alone (s s' : Source) : (Context.alone s).SpelledOut (.alone s') :=
  fun _ => .unknown

section Longhand

variable {P : Prop} {ctx ctx' : Context} {n n' : Option Node} {a a' : Node}

/-- What can be folded with some budget is kept when shorthands are spelled out. -/
structure Folder.Keeps (f : Context → Folder) : Prop where
  constant : ∀ {ctx ctx' n n'}, ctx.SpelledOut ctx' →
    Option.Rel Bare.SpelledOut (coreOf ctx.source n) (coreOf ctx'.source n') →
    Traced.Keeps (Answers ctx.importer) ((f ctx).constant n) ((f ctx').constant n')
  name : ∀ {ctx ctx' k k'}, ctx.SpelledOut ctx' → k.text ctx.source = k'.text ctx'.source →
    Traced.Keeps (Answers ctx.importer) ((f ctx).name k) ((f ctx').name k')
  longhand : ∀ {ctx ctx' k n a}, ctx.SpelledOut ctx' → unwrapOf n = some a →
    a.shape = .identifier → k.text ctx.source = a.text ctx'.source →
    Traced.Keeps (Answers ctx.importer) ((f ctx).name k) ((f ctx').constant n)

variable {f : Context → Folder}

theorem propertyName?_eq_none {s : Source} {p : Node} (hs : p.kind ≠ .shorthandPropertyIdentifier)
    (hk : p.kind ≠ .pair) : propertyName? s p = none := by
  unfold propertyName?
  split
  · next h => exact absurd h hs
  · next h => exact absurd h hk
  · rfl

theorem property_of_shorthand (s : Source) (f : Folder) {p : Node}
    (hs : p.kind = .shorthandPropertyIdentifier) :
    propertyName? s p = some (p.text s) ∧ propertyValue f p = f.name p := by
  simp only [propertyName?, propertyValue, hs, if_true, and_self]

theorem property_of_pair (s : Source) (f : Folder) {p k : Node} (hk : p.kind = .pair)
    (hkey : p.child? .key = some k) (hkk : k.kind = .propertyIdentifier) :
    propertyName? s p = some (k.text s) ∧ propertyValue f p = f.constant (p.child? .value) := by
  simp [propertyName?, propertyValue, hk, hkey, hkk]

theorem propertyName?_spelledOut {s s' : Source} {p p' : Node} (hk : p.kind = .pair)
    (hk' : p'.kind = .pair)
    (hc : List.Forall₂ Bare.SpelledOut (bareAll s p.allChildren) (bareAll s' p'.allChildren)) :
    propertyName? s' p' = propertyName? s p := by
  have hkey := Node.child?_spelledOut hc (r := .key) (by decide)
  simp only [propertyName?, hk, hk']
  cases hp : p.child? .key with
  | none =>
    cases hp' : p'.child? .key with
    | none => rfl
    | some _ =>
      rw [hp, hp'] at hkey
      cases hkey
  | some c =>
    cases hp' : p'.child? .key with
    | none =>
      rw [hp, hp'] at hkey
      cases hkey
    | some c' =>
      rw [hp, hp'] at hkey
      cases hkey with
      | some hcc =>
        have hkind : c.kind = .propertyIdentifier ↔ c'.kind = .propertyIdentifier := by
          rw [← Node.kind_bare_iff (s := s) rfl, ← Node.kind_bare_iff (s := s') rfl]
          exact hcc.kind_iff (by decide) (by decide)
        dsimp only
        by_cases hck : c.kind = .propertyIdentifier
        · have hck' := hkind.1 hck
          have ht := hcc.texts_eq (by rw [(Node.kind_bare_iff rfl).2 hck]; decide)
          rw [Node.texts_bare (by rw [hck']; rfl) (by rw [hck']; rfl),
            Node.texts_bare (by rw [hck]; rfl) (by rw [hck]; rfl)] at ht
          rw [if_pos hck, if_pos hck', (List.cons.inj ht).1]
        · rw [if_neg hck, if_neg fun h => hck (hkind.2 h)]

/-- Of properties of which one is spelled out, both have the same name and values of which one is
spelled out, or none has a name. -/
theorem property_keeps (hf : Folder.Keeps f) (hctx : ctx.SpelledOut ctx') {p p' : Node}
    (hp : Bare.SpelledOut (bare ctx.source p) (bare ctx'.source p')) :
    propertyName? ctx'.source p' = propertyName? ctx.source p ∧
      (propertyName? ctx.source p ≠ none → Keeps (Answers ctx.importer)
        (propertyValue (f ctx) p) (propertyValue (f ctx') p')) := by
  rcases Node.property_spelledOut hp with ⟨hk, hk', ht⟩ | ⟨hk, hk', hc⟩ | ⟨hk, hk', hc⟩ | ⟨hk, hk'⟩
  · obtain ⟨hn, hv⟩ := property_of_shorthand ctx.source (f ctx) hk
    obtain ⟨hn', hv'⟩ := property_of_shorthand ctx'.source (f ctx') hk'
    rw [hn, hn', hv, hv', ht]
    exact ⟨rfl, fun _ => hf.name hctx ht.symm⟩
  · obtain ⟨hn, hv⟩ := property_of_shorthand ctx.source (f ctx) hk
    obtain ⟨⟨key, hkey, hkk, hx⟩, v, hvalue, hb⟩ := Node.child?_of_pair hc rfl
    obtain ⟨hn', hv'⟩ := property_of_pair ctx'.source (f ctx') hk' hkey hkk
    obtain ⟨a, ha, hak, hat, -⟩ := Node.unwrap?_of_bare hb (by decide)
    rw [Node.texts_of_isToken (by rw [hak]; rfl)] at hat
    rw [hn, hn', hv, hv', hx, hvalue]
    exact ⟨rfl, fun _ => hf.longhand hctx ha (congrArg Kind.shape hak) (List.cons.inj hat).1.symm⟩
  · refine ⟨propertyName?_spelledOut hk hk' hc, fun _ => ?_⟩
    rw [propertyValue, propertyValue, if_neg (by rw [hk]; decide), if_neg (by rw [hk']; decide)]
    exact hf.constant hctx (Node.coreOf_spelledOut (Node.child?_spelledOut hc (by decide)))
  · rw [propertyName?_eq_none hk.1 hk.2, propertyName?_eq_none hk'.1 hk'.2]
    exact ⟨rfl, fun h => absurd rfl h⟩

theorem foldRecord_keeps (hf : Folder.Keeps f) (hctx : ctx.SpelledOut ctx')
    (hc : List.Forall₂ Bare.SpelledOut (bareAll ctx.source a.allChildren)
      (bareAll ctx'.source a'.allChildren)) :
    Keeps (Answers ctx.importer) (foldRecord ctx.source (f ctx) a)
      (foldRecord ctx'.source (f ctx') a') :=
  foldRecord_related (Keeps.congruence _)
    ((Node.forall₂_children_spelledOut hc).imp fun _ _ hp => property_keeps hf hctx hp)

theorem shape_of_spelledOut (h : Bare.SpelledOut (shell ctx.source a) (shell ctx'.source a')) :
    a'.shape = a.shape ∧ (a.shape ≠ .other → a'.kind = a.kind ∧
      Node.texts ctx'.source a' = Node.texts ctx.source a ∧
        List.Forall₂ Bare.SpelledOut (bareAll ctx.source a.allChildren)
          (bareAll ctx'.source a'.allChildren)) := by
  rcases h.inv with ⟨hk, ht, hc⟩ | ⟨_, hk, -, hk', -⟩
  · exact ⟨congrArg Kind.shape hk, fun _ => ⟨hk, ht, hc⟩⟩
  · have hs : a.shape = .other := congrArg Kind.shape hk
    have hs' : a'.shape = .other := congrArg Kind.shape hk'
    exact ⟨hs'.trans hs.symm, fun h => absurd hs h⟩

theorem foldElement_keeps (hf : Folder.Keeps f) (hctx : ctx.SpelledOut ctx') {c c' : Node}
    (hc : Bare.SpelledOut (bare ctx.source c) (bare ctx'.source c')) :
    Keeps (Answers ctx.importer) (foldElement ctx.source (f ctx) c)
      (foldElement ctx'.source (f ctx') c') := by
  have hcore : Option.Rel Bare.SpelledOut (coreOf ctx.source (some c)) (coreOf ctx'.source (some c')) :=
    Node.core_spelledOut hc
  refine foldElement_related (Keeps.congruence _) (hf.constant hctx hcore)
    (Pointwise.option_imp (fun o o' ho => ?_) (Node.unwrapOf_spelledOut hcore))
  obtain ⟨hs, hparts⟩ := shape_of_spelledOut ho
  exact ⟨hs, fun hobject =>
    foldRecord_keeps hf hctx (hparts (by rw [hobject]; decide)).2.2⟩

theorem foldTemplate_keeps (hf : Folder.Keeps f) (hctx : ctx.SpelledOut ctx')
    (hk : a.kind = .templateString) (hk' : a'.kind = .templateString)
    (ht : Node.texts ctx'.source a' = Node.texts ctx.source a)
    (hc : List.Forall₂ Bare.SpelledOut (bareAll ctx.source a.allChildren)
      (bareAll ctx'.source a'.allChildren)) :
    Keeps (Answers ctx.importer) (foldTemplate ctx.source (f ctx).constant a)
      (foldTemplate ctx'.source (f ctx').constant a') := by
  unfold foldTemplate
  rcases Literal.Template.ofNode_spelledOut hk hk' ht hc with
    ⟨e, h, h'⟩ | ⟨t, t', h, h', hfirst, hrest⟩
  · rw [h, h']
    exact .inl rfl
  · rw [h, h']
    change Keeps _ (joinTemplate (f ctx).constant t.first t.rest)
      (joinTemplate (f ctx').constant t'.first t'.rest)
    rw [hfirst]
    exact joinTemplate_related (Keeps.congruence _) _ (hrest.imp fun p p' ⟨hcore, hquasi⟩ =>
      ⟨hf.constant hctx hcore, hquasi⟩)

theorem foldImport_keeps {constantIn : Context → Option Node → Traced Folded}
    (hc : ∀ {s s' n n'}, Option.Rel Bare.SpelledOut (coreOf s n) (coreOf s' n') →
      (constantIn (.alone s) n).outcome = (constantIn (.alone s') n').outcome)
    {importer importer' : Option Importer} {i i' : Import}
    (h : SpelledOutExport ((exportedVariable importer i).map (Option.map fun v => coreOf v.1 v.2))
      ((exportedVariable importer' i').map (Option.map fun v => coreOf v.1 v.2))) :
    (foldImport constantIn importer i).outcome = (foldImport constantIn importer' i').outcome := by
  rw [foldImport_outcome, foldImport_outcome]
  generalize exportedVariable importer i = v at h ⊢
  generalize exportedVariable importer' i' = v' at h ⊢
  rcases v with e | _ | ⟨s, v⟩ <;> rcases v' with e' | _ | ⟨s', v'⟩ <;>
    first
    | (cases h; rfl)
    | (cases h; done)
    | (cases h with | value h => exact hc h)

theorem foldName_keeps {constantIn : Context → Option Node → Traced Folded}
    (hc : ∀ {ctx ctx' n n'}, Context.SpelledOut ctx ctx' →
      Option.Rel Bare.SpelledOut (coreOf ctx.source n) (coreOf ctx'.source n') →
      Keeps (Answers ctx.importer) (constantIn ctx n) (constantIn ctx' n'))
    (hctx : ctx.SpelledOut ctx') (h : a.text ctx.source = a'.text ctx'.source) :
    Keeps (Answers ctx.importer) (foldName constantIn ctx a) (foldName constantIn ctx' a') := by
  have halone {s s' : Source} {n n' : Option Node}
      (h : Option.Rel Bare.SpelledOut (coreOf s n) (coreOf s' n')) :
      (constantIn (.alone s) n).outcome = (constantIn (.alone s') n').outcome :=
    (hc (spelledOut_alone s s') h).eq nofun
  have hm := hctx (a.text ctx.source)
  unfold foldName
  rw [← h]
  unfold Context.meaning at hm
  generalize ctx.lookup (a.text ctx.source) = l at hm ⊢
  generalize ctx'.lookup (a.text ctx.source) = l' at hm ⊢
  rcases l with _ | _ | _ | _ | _ <;> rcases l' with _ | _ | _ | _ | _ <;>
    first
    | exact .refl _
    | (cases hm; done)
    | (cases hm with | imported hm => exact .inl (foldImport_keeps halone hm))
    | (cases hm with | declared hm => exact hc hctx hm)

theorem partsRelated_keeps (hf : Folder.Keeps f) (hctx : ctx.SpelledOut ctx')
    (h : Bare.SpelledOut (shell ctx.source a) (shell ctx'.source a')) :
    PartsRelated (Keeps (Answers ctx.importer)) ctx ctx' f a a' := by
  obtain ⟨hshape, hparts⟩ := shape_of_spelledOut h
  have htext (hs : a.shape ≠ .other) (hk : a.kind.isToken = true) :
      a'.text ctx'.source = a.text ctx.source := by
    obtain ⟨hkind, ht, -⟩ := hparts hs
    exact Node.text_eq_of_texts hkind hk ht
  have hside (hk : a.kind = .binaryExpression .plus) {r : Role} (hr : r ≠ .none) :
      Keeps (Answers ctx.importer) ((f ctx).constant (a.child? r))
        ((f ctx').constant (a'.child? r)) := by
    obtain ⟨-, -, hc⟩ := hparts (by rw [Node.shape, hk]; decide)
    exact hf.constant hctx (Node.coreOf_spelledOut (Node.child?_spelledOut hc hr))
  exact {
    shape := hshape
    string := fun hs => by
      rw [Literal.stringValue, Literal.stringValue,
        htext (by rw [hs]; decide) (by rw [Node.kind_of_shape_string hs]; rfl)]
      exact .refl _
    array := fun hs =>
      (Node.forall₂_children_spelledOut (hparts (by rw [hs]; decide)).2.2).imp fun _ _ hc =>
        foldElement_keeps hf hctx hc
    identifier := fun hs => foldName_keeps hf.constant hctx
      (htext (by rw [hs]; decide) (by rw [Node.kind_of_shape_identifier hs]; rfl)).symm
    template := fun hs => by
      obtain ⟨hk, ht, hc⟩ := hparts (by rw [hs]; decide)
      have hkt := Node.kind_of_shape_template hs
      exact foldTemplate_keeps hf hctx hkt (hk.trans hkt) ht hc
    binary := fun hs => (hparts (by rw [hs]; decide)).1
    left := fun hk => hside hk (by decide)
    right := fun hk => hside hk (by decide) }

theorem foldName_last (ctx : Context) (k : Node) :
    Keeps (Answers ctx.importer) (foldName (fun _ _ => pure .dynamic) ctx k) (pure .dynamic) := by
  rcases foldName_cases ctx k with ⟨_, _, -, h⟩ | ⟨o, ho, h⟩
  · exact .inl (h _)
  · cases o with
    | ok v => exact .inl ((h _).trans (congrArg _ (ho.dynamic v rfl)))
    | error e =>
      obtain ⟨i, hi, module, hm⟩ := ho.blames e rfl
      refine .inr ⟨fun hanswers => ?_, e, h _⟩
      obtain ⟨t, ht⟩ := hanswers i hi module
      cases hm.symm.trans ht

/-- With any budget, folding is kept when shorthands are spelled out. -/
theorem folder_keeps (b : Nat) : Folder.Keeps (folder b) := by
  induction b with
  | zero =>
    exact {
      constant := fun _ _ => .refl _
      name := fun hctx h => foldName_keeps (fun _ _ => .refl _) hctx h
      longhand := fun _ _ _ _ => foldName_last _ _ }
  | succ b ih =>
    refine {
      constant := ?_
      name := fun hctx h => foldName_keeps ih.constant hctx h
      longhand := ?_ }
    · intro ctx ctx' n n' hctx h
      exact next_related (Keeps.congruence _)
        (Pointwise.option_imp (fun _ _ ha => partsRelated_keeps ih hctx ha)
          (Node.unwrapOf_spelledOut h))
    · intro ctx ctx' k n a hctx hu hs h
      simp only [folder, Folder.next, hu, foldShape, hs]
      exact foldName_keeps ih.constant hctx h

end Longhand

section Single

variable {ctx : Context} {depth : Int} {n : Option Node} {x : Text}

/-- What an array literal says that holds one object literal with one property. -/
def arrayOf (property : Bare) : Bare := .mk .none .array [] [.mk .none .object [] [property]]

/-- What a shorthand property says. -/
def shorthandOf (x : Text) : Bare := .mk .none .shorthandPropertyIdentifier [x] []

/-- What a pair with a plain name says. -/
def pairOf (x : Text) (value : Bare) : Bare :=
  .mk .none .pair [] [.mk .key .propertyIdentifier [x] [], value]

theorem children_of_bareAll {s : Source} {a : Node} {b : Bare} (h : bareAll s a.allChildren = [b])
    (hb : b.kind ≠ .comment) : ∃ c, a.children = [c] ∧ bare s c = b := by
  have hm := Node.map_bare_children s a
  have hkeep : (b.kind != .comment) = true := by simpa using hb
  rw [h, List.filter_singleton, hkeep, cond_true] at hm
  obtain ⟨c, hc, hcb⟩ := List.map_eq_singleton_iff.1 hm
  exact ⟨c, hc, hcb⟩

theorem constant_arrayOf (hd : depth ≤ maxDepth) {q : Bare} (hq : q.kind ≠ .comment)
    (h : coreOf ctx.source n = some (arrayOf q)) : ∃ p, bare ctx.source p = q ∧
      (constant ctx depth n).outcome =
        (foldProperty ctx.source (folder (budget (depth + 1)) ctx) [] p >>=
          fun r => pure (Folded.records [r])).outcome := by
  rw [Node.coreOf_eq] at h
  obtain ⟨a, ha, hshell⟩ := Option.map_eq_some_iff.1 h
  have hs : a.shape = .array := congrArg Kind.shape (congrArg Bare.kind hshell)
  obtain ⟨c, hc, hcb⟩ := children_of_bareAll (congrArg Bare.children hshell) nofun
  obtain ⟨o, ho, hok, -, hoc⟩ := Node.unwrap?_of_bare hcb nofun
  obtain ⟨p, hp, hpb⟩ := children_of_bareAll hoc hq
  refine ⟨p, hpb, ?_⟩
  have hobject : o.shape = .object := congrArg Kind.shape hok
  rw [constant_of_array hd ha hs, hc, foldElements]
  refine (Traced.bind_outcome_congr
    (foldElement_object (folder_object _ ctx ho hobject) ho hobject) fun _ => rfl).trans ?_
  rw [foldRecord, hp, List.foldlM_cons]
  simp only [List.foldlM_nil, bind_pure, bind_assoc, pure_bind]
  rfl

theorem folder_other (b : Nat) (ctx : Context) {n : Option Node} {a : Node} (hu : unwrapOf n = some a)
    (hs : a.shape = .other) : ((folder b ctx).constant n).outcome = .ok .dynamic := by
  cases b with
  | zero => rfl
  | succ b => simp [folder, Folder.next, hu, foldShape, hs]

/-- A pair whose value is not read adds nothing to its record. -/
theorem constant_pairOf_unread (hd : depth ≤ maxDepth) {v : Bare} (hv : v.role = .value)
    (hs : v.kind.shape = .other) (h : coreOf ctx.source n = some (arrayOf (pairOf x v))) :
    (constant ctx depth n).outcome = .ok (.records [[]]) := by
  have hne : (pairOf x v).kind ≠ .comment := nofun
  obtain ⟨p, hp, hfold⟩ := constant_arrayOf hd hne h
  have hpair : p.kind = .pair := (Node.kind_bare_iff rfl).1 (by rw [hp]; rfl)
  have hparts := (Node.bare_of_isPart (s := ctx.source) (n := p) (by rw [hpair]; rfl)).2.2
  rw [hp] at hparts
  obtain ⟨⟨key, hkey, hkk, -⟩, w, hw, hwv⟩ := Node.child?_of_pair hparts.symm hv
  obtain ⟨r, k, ts, cs⟩ := v
  have hkind : k ≠ .parenthesizedExpression := by
    rintro rfl
    cases hs
  obtain ⟨a, ha, hak, -⟩ := Node.unwrap?_of_bare hwv hkind
  obtain ⟨hname, hvalue⟩ :=
    property_of_pair ctx.source (folder (budget (depth + 1)) ctx) hpair hkey hkk
  have hdynamic : (propertyValue (folder (budget (depth + 1)) ctx) p).outcome = .ok .dynamic := by
    rw [hvalue, hw]
    exact folder_other _ _ ha ((congrArg Kind.shape hak).trans hs)
  rw [hfold, foldProperty_eq, hname]
  dsimp only
  rw [bind_assoc, Traced.bind_of_ok hdynamic]
  rfl

/-- A shorthand adds to its record what its name comes to one step further. -/
theorem constant_shorthandOf (hd : depth ≤ maxDepth) (hanswers : Answers ctx.importer) {k : Node}
    (hk : k.shape = .identifier) (hx : k.text ctx.source = x)
    (h : coreOf ctx.source n = some (arrayOf (shorthandOf x))) :
    (constant ctx depth n).outcome = (constant ctx (depth + 1) (some k)).outcome.map
      fun v => .records [keepString x [] v] := by
  have hne : (shorthandOf x).kind ≠ .comment := nofun
  obtain ⟨p, hp, hfold⟩ := constant_arrayOf hd hne h
  have hshort : p.kind = .shorthandPropertyIdentifier := (Node.kind_bare_iff rfl).1 (by rw [hp]; rfl)
  have htext := Node.texts_bare (s := ctx.source) (n := p) (by rw [hshort]; rfl) (by rw [hshort]; rfl)
  rw [hp] at htext
  have hpx : p.text ctx.source = x := (List.cons.inj htext).1.symm
  obtain ⟨hname, hvalue⟩ := property_of_shorthand ctx.source (folder (budget (depth + 1)) ctx) hshort
  have hu : unwrapOf (some k) = some k := Node.unwrap?_of_shape (by simp [hk])
  have hlonghand := ((folder_keeps (budget (depth + 1))).longhand (.refl ctx) hu hk
    (hpx.trans hx.symm)).eq hanswers
  rw [hfold, foldProperty_eq, hname, hpx]
  dsimp only
  rw [bind_assoc, hvalue]
  cases ho : (constant ctx (depth + 1) (some k)).outcome with
  | ok v =>
    rw [Traced.bind_of_ok (hlonghand.trans ho)]
    rfl
  | error e =>
    rw [Traced.bind_of_error (hlonghand.trans ho)]
    rfl

end Single

/-- **Shorthand properties fold as their longhand.** With some shorthands spelled out, in the
expression and in the values that names stand for, it folds to the same at every depth, if the
importer answers; and whatever it folds to with the shorthands, it folds to without them. What
counts is that the value is read as a name: where it is not, `[{x}]` and `[{x: x}]` fold to the same
just if `x` comes to something one step further that is no string. -/
theorem constant_spelledOut {ctx ctx' : Context} {n n' : Option Node} (depth : Int) :
    (ctx.SpelledOut ctx' →
      Option.Rel Bare.SpelledOut (coreOf ctx.source n) (coreOf ctx'.source n') →
      (Answers ctx.importer → (constant ctx depth n).outcome = (constant ctx' depth n').outcome) ∧
        ∀ v, (constant ctx depth n).outcome = .ok v → (constant ctx' depth n').outcome = .ok v) ∧
    ∀ (x : Text) (v : Bare) (k : Node), Answers ctx.importer →
      coreOf ctx.source n = some (arrayOf (shorthandOf x)) →
      coreOf ctx'.source n' = some (arrayOf (pairOf x v)) →
      v.role = .value → v.kind.shape = .other → k.shape = .identifier → k.text ctx.source = x →
      ((constant ctx depth n).outcome = (constant ctx' depth n').outcome ↔
        ∃ w, (constant ctx (depth + 1) (some k)).outcome = .ok w ∧ ∀ s, w ≠ .string s) := by
  refine ⟨fun hctx h => ?_, fun x v k hanswers hn hn' hv hvs hk hx => ?_⟩
  · have hkeeps := (folder_keeps (budget depth)).constant hctx h
    exact ⟨hkeeps.eq, fun v hv => hkeeps.ok hv⟩
  by_cases hd : depth ≤ maxDepth
  · rw [constant_shorthandOf hd hanswers hk hx hn, constant_pairOf_unread hd hv hvs hn']
    cases (constant ctx (depth + 1) (some k)).outcome with
    | error e => exact iff_of_false nofun nofun
    | ok w =>
      cases w with
      | string s =>
        refine iff_of_false ?_ ?_
        · intro h
          cases h
        · rintro ⟨w, hw, hne⟩
          exact hne s (Except.ok.inj hw).symm
      | dynamic | strings | records => exact iff_of_true rfl ⟨_, rfl, nofun⟩
  -- Past the greatest depth both arrays are dynamic, and so is the name.
  · have hlast : ∀ {ctx d n}, maxDepth < d → (constant ctx d n).outcome = .ok .dynamic := by
      intro ctx d n hd
      rw [constant, budget_of_lt hd]
      rfl
    have hd : maxDepth < depth := Int.not_le.1 hd
    refine iff_of_true ?_ ⟨.dynamic, hlast (by omega), nofun⟩
    rw [hlast hd, hlast hd]

section Example

/-- Where `a` stands for the variable of `const a='x';` at the start of a text. -/
def quotedContext (rest : String) : Context where
  source := ⟨(Utf8.encode (text ("const a='x';" ++ rest))).toArray⟩
  lookup := fun x =>
    if x = text "a" then (Place.root (quotedDeclaration 0)).children.head?.map .declared else none
  importer := none

/-- What `a` comes to there. -/
def quotedMeaning : Meaning :=
  .declared (some (.mk .none .string [text "'x'"] [.mk .none .stringFragment [] []]))

/-- The array literal `[{a}]` behind `const a='x';`. -/
def shortArray : Node :=
  .mk .none .array ⟨12, 17⟩ [.mk .none .object ⟨13, 16⟩
    [.mk .none .shorthandPropertyIdentifier ⟨14, 15⟩ []]]

/-- The array literal `[{a:a}]` behind `const a='x';`. -/
def longArray : Node :=
  .mk .none .array ⟨12, 19⟩ [.mk .none .object ⟨13, 18⟩
    [.mk .none .pair ⟨14, 17⟩
      [.mk .key .propertyIdentifier ⟨14, 15⟩ [], .mk .value .identifier ⟨16, 17⟩ []]]]

/-- An array literal of one property in the block of `undefinedProgram`. -/
def undefinedArray (property : Node) : Node :=
  .mk .value .array ⟨34, property.span.stop + 2⟩
    [.mk .none .object ⟨35, property.span.stop + 1⟩ [property]]

/-- The program `{const undefined='x';const result=` with an array literal of one property, and what
closes it, where the property ends. -/
def undefinedProgram (property : Node) (rest : String) : Program where
  source := ⟨(Utf8.encode (text ("\x7bconst undefined='x';const result=[\x7bundefined" ++ rest))).toArray⟩
  root :=
    let stop := property.span.stop
    .mk .none .program ⟨0, stop + 4⟩
      [.mk .none .statementBlock ⟨0, stop + 4⟩
        [.mk .none .lexicalDeclaration ⟨1, 21⟩
          [.mk .none .variableDeclarator ⟨7, 20⟩
            [.mk .name .identifier ⟨7, 16⟩ [],
              .mk .value .string ⟨17, 20⟩ [.mk .none .stringFragment ⟨18, 19⟩ []]]],
          .mk .none .lexicalDeclaration ⟨21, stop + 3⟩
            [.mk .none .variableDeclarator ⟨27, stop + 2⟩
              [.mk .name .identifier ⟨27, 33⟩ [], undefinedArray property]]]]

/-- The property `undefined`. -/
def undefinedShorthand : Node := .mk .none .shorthandPropertyIdentifier ⟨36, 45⟩ []

/-- The property `undefined:undefined`. -/
def undefinedPair : Node :=
  .mk .none .pair ⟨36, 55⟩
    [.mk .key .propertyIdentifier ⟨36, 45⟩ [], .mk .value .undefinedName ⟨46, 55⟩ []]

/-- The program with the property `undefined`. -/
def undefinedShort : Program := undefinedProgram undefinedShorthand "\x7d];\x7d"

/-- The program with the property `undefined:undefined`. -/
def undefinedLong : Program := undefinedProgram undefinedPair ":undefined\x7d];\x7d"

/-- Where the arrays of `undefinedShort` and `undefinedLong` are folded. -/
def inBlock (p : Program) (t : ScopeTree) : Context := inScope p.source t none 1

/-- Behind `const a='x';`, the array `[{a:a}]` holds the record of `[{a}]`. The arrays of
`undefinedShort` and `undefinedLong` do not fold to the same. -/
theorem constant_spelledOut_short :
    ((constant (quotedContext "[\x7ba\x7d]") 0 (some shortArray)).outcome =
        .ok (.records [[(text "a", text "x")]]) ∧
      (constant (quotedContext "[\x7ba\x7d]") 0 (some shortArray)).outcome =
        (constant (quotedContext "[\x7ba:a\x7d]") 0 (some longArray)).outcome) ∧
    ∃ t t', ScopeTree.ofProgram undefinedShort = .ok t ∧ ScopeTree.ofProgram undefinedLong = .ok t' ∧
      (constant (inBlock undefinedShort t) 0 (some (undefinedArray undefinedShorthand))).outcome ≠
        (constant (inBlock undefinedLong t') 0 (some (undefinedArray undefinedPair))).outcome := by
  constructor
  · have hctx : (quotedContext "[\x7ba\x7d]").SpelledOut (quotedContext "[\x7ba:a\x7d]") := by
      intro name
      by_cases h : name = text "a"
      · subst h
        have hshort : (quotedContext "[\x7ba\x7d]").meaning (text "a") = quotedMeaning := rfl
        have hlong : (quotedContext "[\x7ba:a\x7d]").meaning (text "a") = quotedMeaning := rfl
        rw [hshort, hlong]
        exact .declared (Bare.spelledOut_refl_option _)
      · have hunknown (rest : String) : (quotedContext rest).meaning name = .unknown := by
          simp [Context.meaning, quotedContext, h]
        rw [hunknown, hunknown]
        exact .unknown
    have hcore : Option.Rel Bare.SpelledOut
        (coreOf (quotedContext "[\x7ba\x7d]").source (some shortArray))
        (coreOf (quotedContext "[\x7ba:a\x7d]").source (some longArray)) := by
      have hshort : coreOf (quotedContext "[\x7ba\x7d]").source (some shortArray) =
          some (arrayOf (shorthandOf (text "a"))) := rfl
      have hlong : coreOf (quotedContext "[\x7ba:a\x7d]").source (some longArray) =
          some (arrayOf (pairOf (text "a") (.mk .value .identifier [text "a"] []))) := rfl
      rw [hshort, hlong]
      exact .some (.same (.cons (.same (.cons (.longhand _ _) .nil)) .nil))
    exact ⟨rfl, ((constant_spelledOut 0).1 hctx hcore).1 nofun⟩
  · obtain ⟨t, t', ht, ht', hname⟩ : ∃ t t', ScopeTree.ofProgram undefinedShort = .ok t ∧
        ScopeTree.ofProgram undefinedLong = .ok t' ∧
        (constant (inBlock undefinedShort t) 1 (some (.mk .name .identifier ⟨7, 16⟩ []))).outcome =
          .ok (.string (text "x")) := ⟨_, _, rfl, rfl, rfl⟩
    refine ⟨t, t', ht, ht', fun h => ?_⟩
    have hshorthand (s : Source) : coreOf s (some (undefinedArray undefinedShorthand)) =
        some (arrayOf (shorthandOf (s.slice ⟨36, 45⟩))) := rfl
    have hpair (s : Source) : coreOf s (some (undefinedArray undefinedPair)) =
        some (arrayOf (pairOf (s.slice ⟨36, 45⟩)
          (.mk .value .undefinedName [s.slice ⟨46, 55⟩] []))) := rfl
    obtain ⟨hdeclared, hkept⟩ :
        undefinedShort.source.slice ⟨7, 16⟩ = undefinedShort.source.slice ⟨36, 45⟩ ∧
          undefinedLong.source.slice ⟨36, 45⟩ = undefinedShort.source.slice ⟨36, 45⟩ := by
      decide +kernel
    have hlong := hpair undefinedLong.source
    rw [hkept] at hlong
    have hanswers : Answers (inBlock undefinedShort t).importer := nofun
    obtain ⟨w, hw, hne⟩ := ((constant_spelledOut 0).2 _ _ (.mk .name .identifier ⟨7, 16⟩ []) hanswers
      (hshorthand (inBlock undefinedShort t).source) hlong rfl rfl rfl hdeclared).1 h
    exact hne (text "x") (Except.ok.inj (hw.symm.trans hname))

/-- A variable may have the name `undefined`; the property `undefined` has its value, and the
property `undefined: undefined` has none that is known, for that word is no name to folding. -/
theorem constant_undefinedLong : ∃ t t', ScopeTree.ofProgram undefinedShort = .ok t ∧
    ScopeTree.ofProgram undefinedLong = .ok t' ∧
    ∃ r ∈ (Place.root undefinedShort.root).preorder, ∃ r' ∈ (Place.root undefinedLong.root).preorder,
      r.node.text undefinedShort.source = text "[\x7bundefined\x7d]" ∧
      r'.node.text undefinedLong.source = text "[\x7bundefined:undefined\x7d]" ∧
      (constant (inScope undefinedShort.source t none (t.scopeFor r)) 0 (some r.node)).outcome =
        .ok (.records [[(text "undefined", text "x")]]) ∧
      (constant (inScope undefinedLong.source t' none (t'.scopeFor r')) 0 (some r'.node)).outcome =
        .ok (.records [[]]) := by
  have hr := List.get_mem (Place.root undefinedShort.root).preorder ⟨10, by decide⟩
  have hr' := List.get_mem (Place.root undefinedLong.root).preorder ⟨10, by decide⟩
  exact ⟨_, _, rfl, rfl, _, hr, _, hr', rfl, rfl, rfl, rfl⟩

end Example

end Fold
end KeyTrace
