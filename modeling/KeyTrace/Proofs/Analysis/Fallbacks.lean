/-
A fallback fills the gaps that declarations leave, and does nothing else.

A declaration that gives its variable a static namespace goes before every
fallback, even if the namespace is the empty one. A fallback that lists more
variables adds what is looked up through them, in its place between what was
found before; all else stays as it is.
-/
import KeyTrace.Proofs.Analysis.Calls
import KeyTrace.Proofs.Analysis.Escapes
import KeyTrace.Proofs.Pointwise

namespace KeyTrace

/-- A fallback has all that another has, under the same names. -/
def Fallback.Extends (more less : Fallback) : Prop :=
  ∀ name v, Named.get? less name = some v → Named.get? more name = some v

/-- A fallback has a place for a variable, if only one without a namespace. -/
def Fallback.lists (m : Fallback) (name : Text) : Bool := (Named.get? m name).isSome

namespace Usage

open Accessor (Workplace)

variable {w : Workplace} {delimiter : Text} {m less more : Fallback} {call : Place}

/-- A usage with the call that it is found at. -/
structure Finding where
  call : Place
  usage : Usage

namespace Finding

/-- What is found at one call. -/
def ofCall (w : Workplace) (fallback : Fallback) (delimiter : Text) (call : Place) :
    Traced (List Finding) := do
  return (← Usage.ofCall w fallback delimiter call).map (Finding.mk call)

/-- What is found in a program, in the order of the calls. -/
def ofProgram (w : Workplace) (fallback : Fallback) (delimiter : Text) :
    Traced (List Finding) := do
  return (← (w.placesOf .callExpression).mapM (ofCall w fallback delimiter)).flatten

/-- The declaration of the variable gives it a static namespace at the call, be it the empty one. -/
def settled (w : Workplace) (f : Finding) : Bool :=
  match (ownNamespace w (w.scopes.scopeFor f.call) f.usage.variableName).outcome with
  | .ok (some _) => true
  | _ => false

/-- A fallback lets a usage stand: it lists the variable, or has no say in it. -/
def stands (w : Workplace) (m : Fallback) (f : Finding) : Bool :=
  m.lists f.usage.variableName || f.settled w

theorem usages_ofCall (w : Workplace) (m : Fallback) (delimiter : Text) (call : Place) :
    List.map usage <$> ofCall w m delimiter call = Usage.ofCall w m delimiter call := by
  rw [ofCall, map_bind]
  simp [Function.comp_def]

theorem usages_ofProgram (w : Workplace) (m : Fallback) (delimiter : Text) :
    List.map usage <$> ofProgram w m delimiter = Usage.ofProgram w m delimiter := by
  have hcalls (l : List Place) : List.map (List.map usage) <$> l.mapM (ofCall w m delimiter) =
      l.mapM (Usage.ofCall w m delimiter) := by
    induction l with
    | nil => rfl
    | cons call l ih =>
      rw [List.mapM_cons, List.mapM_cons, ← ih, ← usages_ofCall]
      simp [map_bind, bind_map_left]
  rw [ofProgram, Usage.ofProgram, ← hcalls]
  simp [List.map_flatten]

theorem ofCall_ok_iff {found : List Finding} :
    (ofCall w m delimiter call).outcome = .ok found ↔
      ∃ us, (Usage.ofCall w m delimiter call).outcome = .ok us ∧ us.map (mk call) = found := by
  rw [ofCall, Traced.bind_ok_iff]
  simp

theorem ofProgram_ok_iff {found : List Finding} :
    (ofProgram w m delimiter).outcome = .ok found ↔
      ∃ parts, List.Forall₂ (fun call part => (ofCall w m delimiter call).outcome = .ok part)
        (w.placesOf .callExpression) parts ∧ parts.flatten = found := by
  rw [ofProgram, Traced.bind_ok_iff]
  simp [Traced.mapM_ok_iff]

theorem at_of_ofCall {found : List Finding} (h : (ofCall w m delimiter call).outcome = .ok found) :
    ∀ f ∈ found, f.call = call ∧ lookupVariable? w.source call.node = some f.usage.variableName := by
  obtain ⟨us, hus, rfl⟩ := ofCall_ok_iff.1 h
  intro f hf
  obtain ⟨u, hu, rfl⟩ := List.mem_map.1 hf
  refine ⟨rfl, ?_⟩
  cases hv : lookupVariable? w.source call.node with
  | none =>
    simp only [Usage.ofCall, hv] at hus
    cases hus
    cases hu
  | some name =>
    obtain ⟨ns, -, ⟨-, rfl⟩ | ⟨first, rest, keys, -, -, rfl⟩⟩ := ofCall_ok_cases hus hv
    · cases hu
    · obtain ⟨key, -, rfl⟩ := List.mem_map.1 hu
      rfl

theorem ofCall_settled {name ns : Text} (hv : lookupVariable? w.source call.node = some name)
    (hown : (ownNamespace w (w.scopes.scopeFor call) name).outcome = .ok (some ns))
    (m m' : Fallback) :
    (ofCall w m delimiter call).outcome = (ofCall w m' delimiter call).outcome := by
  simp only [ofCall, ofCall_eq _ hv, bind_assoc]
  rw [Traced.bind_of_ok hown, Traced.bind_of_ok hown]
  rfl

theorem ofCall_open {name : Text} (hv : lookupVariable? w.source call.node = some name)
    (hown : (ownNamespace w (w.scopes.scopeFor call) name).outcome = .ok none) :
    (∀ m', Named.get? m name = Named.get? m' name →
      (ofCall w m delimiter call).outcome = (ofCall w m' delimiter call).outcome) ∧
    (Named.get? m name = none → (ofCall w m delimiter call).outcome = .ok []) := by
  refine ⟨fun m' hm => ?_, fun hm => ?_⟩
  · simp only [ofCall, ofCall_eq _ hv, hm]
  · simp only [ofCall, ofCall_eq _ hv, hm, bind_assoc]
    rw [Traced.bind_of_ok hown]
    rfl

theorem settled_eq {f : Finding} {own : Option Text}
    (hown : (ownNamespace w (w.scopes.scopeFor f.call) f.usage.variableName).outcome = .ok own) :
    f.settled w = own.isSome := by
  rw [settled, hown]
  cases own <;> rfl

theorem own_of_ofCall {found : List Finding} (h : (ofCall w m delimiter call).outcome = .ok found)
    {name : Text} (hv : lookupVariable? w.source call.node = some name) :
    ∃ own, (ownNamespace w (w.scopes.scopeFor call) name).outcome = .ok own := by
  obtain ⟨us, hus, -⟩ := ofCall_ok_iff.1 h
  rw [ofCall_eq m hv] at hus
  exact (Traced.bind_ok_iff.1 hus).imp fun _ h => h.1

theorem ofCall_none (hv : lookupVariable? w.source call.node = none) :
    (ofCall w m delimiter call).outcome = .ok [] := by
  simp only [ofCall, Usage.ofCall, hv]
  rfl

/-- At one call, a fallback finds those of the findings of a larger one that it lets stand. -/
theorem ofCall_stands (hext : more.Extends less) {found : List Finding}
    (h : (ofCall w more delimiter call).outcome = .ok found) :
    (ofCall w less delimiter call).outcome = .ok (found.filter (stands w less)) := by
  have hat := at_of_ofCall h
  cases hv : lookupVariable? w.source call.node with
  | none =>
    rw [ofCall_none hv] at h
    cases h
    exact ofCall_none hv
  | some name =>
    obtain ⟨own, hown⟩ := own_of_ofCall h hv
    have hstands : ∀ f ∈ found, f.stands w less = (less.lists name || own.isSome) := by
      intro f hf
      obtain ⟨rfl, hname⟩ := hat f hf
      rw [hv] at hname
      cases hname
      rw [stands, settled_eq hown]
    have hall (h : (less.lists name || own.isSome) = true) : found.filter (stands w less) = found :=
      List.filter_eq_self.2 fun f hf => (hstands f hf).trans h
    cases own with
    | some ns =>
      rw [hall (by simp), ofCall_settled hv hown less more, h]
    | none =>
      cases hless : Named.get? less name with
      | some v =>
        rw [hall (by simp [Fallback.lists, hless]),
          (ofCall_open hv hown).1 more (hless.trans (hext name v hless).symm), h]
      | none =>
        have hnil : found.filter (stands w less) = [] :=
          List.filter_eq_nil_iff.2 fun f hf => by simp [hstands f hf, Fallback.lists, hless]
        rw [hnil, (ofCall_open hv hown).2 hless]

/-- At one call, what declarations settle is found alike with any two fallbacks. -/
theorem filter_settled_ofCall {m' : Fallback} {found found' : List Finding}
    (h : (ofCall w m delimiter call).outcome = .ok found)
    (h' : (ofCall w m' delimiter call).outcome = .ok found') :
    found.filter (settled w) = found'.filter (settled w) := by
  have hat := at_of_ofCall h
  have hat' := at_of_ofCall h'
  cases hv : lookupVariable? w.source call.node with
  | none =>
    rw [ofCall_none hv] at h h'
    cases h
    cases h'
    rfl
  | some name =>
    obtain ⟨own, hown⟩ := own_of_ofCall h hv
    cases own with
    | some ns =>
      rw [ofCall_settled hv hown m m', h'] at h
      cases h
      rfl
    | none =>
      have hnil {l : List Finding} (hat : ∀ f ∈ l, f.call = call ∧
          lookupVariable? w.source call.node = some f.usage.variableName) :
          l.filter (settled w) = [] := by
        refine List.filter_eq_nil_iff.2 fun f hf => ?_
        obtain ⟨rfl, hname⟩ := hat f hf
        rw [hv] at hname
        cases hname
        simp [settled_eq hown]
      rw [hnil hat, hnil hat']

theorem ofProgram_stands (hext : more.Extends less) {found : List Finding}
    (h : (ofProgram w more delimiter).outcome = .ok found) :
    (ofProgram w less delimiter).outcome = .ok (found.filter (stands w less)) := by
  obtain ⟨parts, hparts, rfl⟩ := ofProgram_ok_iff.1 h
  rw [List.filter_flatten]
  exact ofProgram_ok_iff.2 ⟨_, List.forall₂_map_right_iff.2
    (hparts.imp fun _ _ h => ofCall_stands hext h), rfl⟩

theorem filter_settled_ofProgram {m' : Fallback} {found found' : List Finding}
    (h : (ofProgram w m delimiter).outcome = .ok found)
    (h' : (ofProgram w m' delimiter).outcome = .ok found') :
    found.filter (settled w) = found'.filter (settled w) := by
  obtain ⟨parts, hparts, rfl⟩ := ofProgram_ok_iff.1 h
  obtain ⟨parts', hparts', rfl⟩ := ofProgram_ok_iff.1 h'
  have hsame : List.Forall₂ Eq (parts.map (List.filter (settled w)))
      (parts'.map (List.filter (settled w))) :=
    List.forall₂_map_left_iff.2 (List.forall₂_map_right_iff.2
      (Pointwise.compose hparts hparts' fun _ _ _ _ h h' => filter_settled_ofCall h h'))
  rw [List.filter_flatten, List.filter_flatten]
  rw [List.forall₂_eq_eq_eq] at hsame
  rw [hsame]

end Finding

/-- Fallbacks only fill gaps in a workplace: of the findings with a larger fallback, a smaller one
leaves out those whose variable it does not list and no declaration settles, and what declarations
settle is found alike with any two. -/
structure GapsFilled (w : Workplace) (delimiter : Text) : Prop where
  stands : ∀ less more : Fallback, more.Extends less → ∀ found,
    (Finding.ofProgram w more delimiter).outcome = .ok found →
    (Finding.ofProgram w less delimiter).outcome = .ok (found.filter (Finding.stands w less))
  settled : ∀ (m m' : Fallback) (found found' : List Finding),
    (Finding.ofProgram w m delimiter).outcome = .ok found →
    (Finding.ofProgram w m' delimiter).outcome = .ok found' →
    found.filter (Finding.settled w) = found'.filter (Finding.settled w)

theorem gapsFilled (w : Workplace) (delimiter : Text) : GapsFilled w delimiter where
  stands _ _ hext _ h := Finding.ofProgram_stands hext h
  settled _ _ _ _ h h' := Finding.filter_settled_ofProgram h h'

theorem discover_outcome {code : Text} {importer : Option Importer} {label : Text} {p : Program}
    (hr : (Program.ofText code).outcome = .ok (some p))
    (hw : (Workplace.ofProgram p importer label).outcome = .ok w) (m : Fallback) (delimiter : Text) :
    (discover code m importer delimiter label).outcome = (ofProgram w m delimiter).outcome := by
  rw [discover, Traced.bind_of_ok hr]
  dsimp only
  rw [Traced.bind_of_ok hw]

/-- **A fallback only fills gaps.** Unless a text is no program, and there are no usages, its usages
with any fallback are found at the calls of one workplace, where of the findings with a larger
fallback, a smaller one leaves out exactly those whose variable it does not list and whose own
declaration gives no static namespace at the call; and what has a namespace by its own declaration is
found alike with any two fallbacks. If the importer answers, there are usages with every fallback. -/
theorem discover_fallbacks (code : Text) (importer : Option Importer) (delimiter label : Text) :
    (((Program.ofText code).outcome = .ok none ∧
        ∀ m, (discover code m importer delimiter label).outcome = .ok []) ∨
      ∃ p w, (Program.ofText code).outcome = .ok (some p) ∧
        (Workplace.ofProgram p importer label).outcome = .ok w ∧
        (∀ m us, (discover code m importer delimiter label).outcome = .ok us ↔
          ∃ found, (Finding.ofProgram w m delimiter).outcome = .ok found ∧
            found.map Finding.usage = us) ∧
        GapsFilled w delimiter) ∧
    (Fold.Answers importer → ∀ m, ∃ us,
      (discover code m importer delimiter label).outcome = .ok us) := by
  refine ⟨?_, fun ha m => Fold.returns_of_blames (discover_blames code m importer delimiter label) ha⟩
  obtain ⟨r, hr⟩ := Program.ofText_returns code
  cases r with
  | none =>
    refine .inl ⟨hr, fun m => ?_⟩
    rw [discover, Traced.bind_of_ok hr]
    rfl
  | some p =>
    obtain ⟨-, w, hw⟩ := Workplace.ofProgram_ok (Program.legal_of_read hr)
      (Program.kind_root_of_ofText hr) importer label
    refine .inr ⟨p, w, hr, hw, fun m us => ?_, gapsFilled w delimiter⟩
    rw [discover_outcome hr hw, ← Finding.usages_ofProgram w m delimiter, ← bind_pure_comp,
      Traced.bind_ok_iff]
    simp

/-- A program in which one variable has the empty namespace, and two are not declared. -/
def halfDeclared : Text := text "const t=useTranslations('');t('a');f('b');g('c')"

/-- A fallback with a namespace that does not count, and a variable that it lists without one. -/
def smallFallback : Fallback := [(text "t", some (text "x")), (text "f", none)]

/-- `smallFallback` leaves out one of the usages of `halfDeclared` with a larger fallback. -/
theorem discover_fallbacks_halfDeclared :
    Fallback.Extends (smallFallback ++ [(text "g", some (text "y"))]) smallFallback ∧
    ∃ w found,
      (Finding.ofProgram w (smallFallback ++ [(text "g", some (text "y"))]) defaultDelimiter).outcome =
        .ok found ∧
      (found.map fun f => (f.usage.key, f.usage.ns)) =
        [(text "a", some []), (text "b", none), (text "y.c", some (text "y"))] ∧
      (discover halfDeclared smallFallback none defaultDelimiter []).outcome =
        .ok ((found.filter (Finding.stands w smallFallback)).map Finding.usage) ∧
      ((found.filter (Finding.stands w smallFallback)).map fun f => f.usage.key) =
        [text "a", text "b"] := by
  have hext : Fallback.Extends (smallFallback ++ [(text "g", some (text "y"))]) smallFallback := by
    intro name v h
    rw [Named.get?] at h ⊢
    rw [List.lookup_append, h]
    rfl
  have hmore : (discover halfDeclared (smallFallback ++ [(text "g", some (text "y"))]) none defaultDelimiter
      []).outcome.toOption.map (List.map fun u => (u.key, u.ns)) =
        some [(text "a", some []), (text "b", none), (text "y.c", some (text "y"))] := by
    decide +kernel
  have hless : (discover halfDeclared smallFallback none defaultDelimiter []).outcome.toOption.map
      (List.map Usage.key) = some [text "a", text "b"] := by decide +kernel
  obtain ⟨⟨-, hnone⟩ | ⟨p, w, -, -, hfound, hgaps⟩, hreturns⟩ :=
    discover_fallbacks halfDeclared none defaultDelimiter []
  · rw [hnone] at hless
    cases hless
  · obtain ⟨us, hus⟩ := hreturns (fun _ h => by cases h) (smallFallback ++ [(text "g", some (text "y"))])
    obtain ⟨found, hf, rfl⟩ := (hfound _ _).1 hus
    have hus' := (hfound _ _).2 ⟨_, hgaps.stands _ _ hext _ hf, rfl⟩
    rw [hus] at hmore
    rw [hus'] at hless
    simp only [Except.toOption, Option.map_some, Option.some.injEq, List.map_map] at hmore hless
    exact ⟨hext, w, found, hf, hmore, hus', hless⟩

end Usage
end KeyTrace
