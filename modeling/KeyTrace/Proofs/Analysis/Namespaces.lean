/-
The namespace of a usage is that of an accessor of the same document.

Accessors are found from the declarators of a program, usages from its calls. A
variable that is in scope at a call is a declarator of the program, so the first
pass has read the same declarator in the same scope; the map between the passes
holds the last static namespace of each name.
-/
import KeyTrace.Editor.Document
import KeyTrace.Proofs.Analysis.Outcomes
import KeyTrace.Proofs.Grammar.Reading
import KeyTrace.Proofs.Scope.Declared
import Mathlib.Data.List.Induction

namespace KeyTrace

namespace NamespaceMap

/-- What the last accessor of a name with a static namespace is bound to, empty ones left out. -/
def last? (accessors : List Accessor) (name : Text) : Option Text :=
  accessors.reverse.findSome? fun a =>
    match a.ns with
    | .static (c :: cs) => if a.variableName = name then some (c :: cs) else none
    | _ => none

theorem get?_static (accessors : List Accessor) (name : Text) :
    Named.get? (static accessors) name = last? accessors name := by
  induction accessors using List.reverseRecOn with
  | nil => rfl
  | append_singleton l a ih =>
    have hs : static (l ++ [a]) = match a.ns with
        | .static (c :: cs) => Named.set a.variableName (c :: cs) (static l)
        | _ => static l := List.foldl_append
    have hl : last? (l ++ [a]) name = match a.ns with
        | .static (c :: cs) => if a.variableName = name then some (c :: cs) else last? l name
        | _ => last? l name := by
      unfold last?
      rw [List.reverse_append, List.reverse_singleton, List.singleton_append, List.findSome?_cons]
      cases a.ns with
      | dynamic => rfl
      | static ns =>
        cases ns with
        | nil => rfl
        | cons c cs =>
          by_cases h : a.variableName = name
          · simp [h]
          · simp [h]
    rw [hs, hl]
    cases a.ns with
    | dynamic => exact ih
    | static ns =>
      cases ns with
      | nil => exact ih
      | cons c cs =>
        dsimp only
        rw [Named.get?_set, ih]
        simp only [eq_comm]

theorem exists_of_last? {accessors : List Accessor} {name ns : Text}
    (h : last? accessors name = some ns) :
    ∃ a ∈ accessors, a.variableName = name ∧ a.ns = .static ns := by
  obtain ⟨a, ha, hns⟩ := List.exists_of_findSome?_eq_some h
  split at hns
  · next c cs hac =>
    split at hns
    · next hname =>
      cases hns
      exact ⟨a, List.mem_reverse.1 ha, hname, hac⟩
    · cases hns
  · cases hns

theorem get?_map_some (m : NamespaceMap) (name : Text) :
    Named.get? (m.map fun p => (p.1, some p.2)) name = (Named.get? m name).map some := by
  induction m with
  | nil => rfl
  | cons p m ih =>
    obtain ⟨n, v⟩ := p
    simp only [Named.get?, List.map_cons, List.lookup_cons] at ih ⊢
    split
    · rfl
    · exact ih

end NamespaceMap

namespace Accessor

variable {w : Workplace}

/-- The first pass reports an accessor for a declarator. -/
def Reports (w : Workplace) (d : Place) (a : Accessor) : Prop :=
  d ∈ w.placesOf .variableDeclarator ∧ (ofDeclarator w d).outcome = .ok (some a)

theorem mem_of_reports {accessors : List Accessor} (h : (ofProgram w).outcome = .ok accessors)
    {d : Place} {a : Accessor} (ha : Reports w d a) : a ∈ accessors := by
  obtain ⟨os, hos, h⟩ := Traced.bind_ok_iff.1 h
  cases h
  obtain ⟨o, ho, hd⟩ := Pointwise.exists_of_mem_left (Traced.mapM_ok_iff.1 hos) ha.1
  rw [ha.2] at hd
  cases hd
  exact List.mem_filterMap.2 ⟨_, ho, rfl⟩

theorem exists_report {accessors : List Accessor} (h : (ofProgram w).outcome = .ok accessors)
    {d : Place} (hd : d ∈ w.placesOf .variableDeclarator) :
    ∃ o, (ofDeclarator w d).outcome = .ok o := by
  obtain ⟨os, hos, h⟩ := Traced.bind_ok_iff.1 h
  obtain ⟨o, -, ho⟩ := Pointwise.exists_of_mem_left (Traced.mapM_ok_iff.1 hos) hd
  exact ⟨o, ho⟩

end Accessor

namespace Usage

open Accessor (Workplace Reports)

/-- The namespace of a variable that looks keys up at a call: that of the accessor reported for its
declarator, if it is static, and that of the last accessor of the name otherwise. -/
inductive NamespaceAt (w : Workplace) (accessors : List Accessor) (call : Place) (name : Text) :
    Text → Prop
  | own {d : Place} {a : Accessor} {ns : Text} :
      w.scopes.resolve (w.scopes.scopeFor call) name = some (.declared d) →
      Reports w d a → a.ns = .static ns → NamespaceAt w accessors call name ns
  | last {ns : Text} :
      (∀ d a, w.scopes.resolve (w.scopes.scopeFor call) name = some (.declared d) →
        Reports w d a → a.ns.static? = none) →
      NamespaceMap.last? accessors name = some ns → NamespaceAt w accessors call name ns

section OwnNamespace

variable {p : Program} {importer : Option Importer} {label : Text} {w : Workplace}

theorem declared_mem_placesOf (hp : p.root.kind = .program)
    (hw : (Workplace.ofProgram p importer label).outcome = .ok w) {i : ScopeId} {name : Text}
    {d : Place} (hd : w.scopes.resolve i name = some (.declared d)) :
    d ∈ w.placesOf .variableDeclarator ∧ Declaration.IsVariable w.source d name := by
  obtain ⟨t, ht, hw⟩ := Traced.bind_ok_iff.1 hw
  cases hw
  obtain ⟨hmem, hvar⟩ := ScopeTree.declared_of_resolve (Traced.ofCooked_ok_iff.1 ht) hp hd
  exact ⟨List.mem_filter.2 ⟨hmem, by simp [hvar.1]⟩, hvar⟩

/-- Both passes read the same namespace off a declarator. -/
theorem ownNamespace_eq {i : ScopeId} {name : Text} {d : Place}
    (hd : w.scopes.resolve i name = some (.declared d))
    (hvar : Declaration.IsVariable w.source d name) {o : Option Accessor}
    (ho : (Accessor.ofDeclarator w d).outcome = .ok o) :
    (ownNamespace w i name).outcome = .ok (o.bind fun a => a.ns.static?) ∧
      ∀ a ∈ o, a.variableName = name := by
  obtain ⟨-, n, hn, hid, hname⟩ := hvar
  unfold Accessor.ofDeclarator at ho
  unfold ownNamespace
  simp only [hn, hid, ne_eq, not_true_eq_false, if_false] at ho
  rw [hd]
  dsimp only
  cases hc : Accessor.call? w.source (d.node.child? .value) with
  | none =>
    rw [hc] at ho
    cases ho
    exact ⟨rfl, by simp⟩
  | some call =>
    rw [hc] at ho
    obtain ⟨ns, hns, ho⟩ := Traced.bind_ok_iff.1 ho
    cases ho
    refine ⟨Traced.bind_ok_iff.2 ⟨ns, hns, rfl⟩, ?_⟩
    rintro a ⟨⟩
    exact hname

/-- A variable has a namespace of its own just when the first pass reports a static one for its
declarator. -/
theorem own_eq_some_iff (hp : p.root.kind = .program)
    (hw : (Workplace.ofProgram p importer label).outcome = .ok w) {accessors : List Accessor}
    (ha : (Accessor.ofProgram w).outcome = .ok accessors) {i : ScopeId} {name : Text}
    {own : Option Text} (ho : (ownNamespace w i name).outcome = .ok own) (ns : Text) :
    own = some ns ↔ ∃ d a, w.scopes.resolve i name = some (.declared d) ∧ Reports w d a ∧
      a.ns = .static ns := by
  constructor
  · rintro rfl
    cases hb : w.scopes.resolve i name with
    | none =>
      rw [ownNamespace, hb] at ho
      cases ho
    | some b =>
      cases b with
      | imported | parameter | other =>
        rw [ownNamespace, hb] at ho
        cases ho
      | declared d =>
        obtain ⟨hd, hvar⟩ := declared_mem_placesOf hp hw hb
        obtain ⟨o, hod⟩ := Accessor.exists_report ha hd
        rw [(ownNamespace_eq hb hvar hod).1, Except.ok.injEq] at ho
        obtain ⟨a, rfl, hns⟩ := Option.bind_eq_some_iff.1 ho
        refine ⟨d, a, rfl, ⟨hd, hod⟩, ?_⟩
        cases hans : a.ns with
        | static n =>
          rw [hans] at hns
          cases hns
          rfl
        | dynamic n =>
          rw [hans] at hns
          cases hns
  · rintro ⟨d, a, hb, hr, hns⟩
    obtain ⟨-, hvar⟩ := declared_mem_placesOf hp hw hb
    rw [(ownNamespace_eq hb hvar hr.2).1, Except.ok.injEq] at ho
    rw [← ho, Option.bind_some, hns]
    rfl

end OwnNamespace

/-- The fallback of a document is made from its own accessors. -/
def fallbackOf (accessors : List Accessor) : Fallback :=
  (NamespaceMap.ofAccessors accessors false).map fun p => (p.1, some p.2)

theorem get?_fallbackOf (accessors : List Accessor) (name : Text) :
    Named.get? (fallbackOf accessors) name = (NamespaceMap.last? accessors name).map some := by
  rw [← NamespaceMap.get?_static]
  exact NamespaceMap.get?_map_some _ name

section Calls

variable {p : Program} {importer : Option Importer} {label : Text} {w : Workplace}
  {accessors : List Accessor}

theorem namespaceOf_ok (hp : p.root.kind = .program)
    (hw : (Workplace.ofProgram p importer label).outcome = .ok w)
    (ha : (Accessor.ofProgram w).outcome = .ok accessors) {call : Place} {name : Text}
    {o : Option Text}
    (ho : (namespaceOf w (fallbackOf accessors) (w.scopes.scopeFor call) name).outcome = .ok o) :
    (∀ ns, o = some ns ↔ NamespaceAt w accessors call name ns) ∧
      (o = none → Named.get? (fallbackOf accessors) name = none) := by
  obtain ⟨own, hown, ho⟩ := Traced.bind_ok_iff.1 ho
  have hiff := own_eq_some_iff hp hw ha hown
  cases own with
  | some ns =>
    cases ho
    refine ⟨fun ns' => ⟨fun h => ?_, fun h => ?_⟩, by simp⟩
    · obtain ⟨d, a, hd, hr, hns⟩ := (hiff ns').1 h
      exact .own hd hr hns
    · cases h with
      | own hd hr hns => exact (hiff ns').2 ⟨_, _, hd, hr, hns⟩
      | last hnone _ =>
        obtain ⟨d, a, hd, hr, hns⟩ := (hiff ns).1 rfl
        have := hnone d a hd hr
        rw [hns] at this
        cases this
  | none =>
    cases ho
    rw [get?_fallbackOf]
    have hlast : ((NamespaceMap.last? accessors name).map some).bind id =
        NamespaceMap.last? accessors name := by
      cases NamespaceMap.last? accessors name <;> rfl
    rw [hlast]
    refine ⟨fun ns => ⟨fun h => .last (fun d a hd hr => ?_) h, fun h => ?_⟩, fun h => by rw [h]; rfl⟩
    · cases hns : a.ns with
      | dynamic => rfl
      | static n => exact absurd ((hiff n).2 ⟨d, a, hd, hr, hns⟩) (by simp)
    · cases h with
      | own hd hr hns => exact absurd ((hiff ns).2 ⟨_, _, hd, hr, hns⟩) (by simp)
      | last _ h => exact h

theorem NamespaceAt.exists_accessor {call : Place} {name ns : Text}
    (h : NamespaceAt w accessors call name ns) (hp : p.root.kind = .program)
    (hw : (Workplace.ofProgram p importer label).outcome = .ok w)
    (ha : (Accessor.ofProgram w).outcome = .ok accessors) :
    ∃ a ∈ accessors, a.variableName = name ∧ a.ns = .static ns := by
  cases h with
  | own hd hr hns =>
    obtain ⟨-, hvar⟩ := declared_mem_placesOf hp hw hd
    exact ⟨_, Accessor.mem_of_reports ha hr, (ownNamespace_eq hd hvar hr.2).2 _ rfl, hns⟩
  | last _ hlast => exact NamespaceMap.exists_of_last? hlast

/-- The usages of one call have the namespace of their variable there, and there are none without
one. -/
structure ByAccessors (w : Workplace) (accessors : List Accessor) (call : Place)
    (usages : List Usage) : Prop where
  ns : ∀ u ∈ usages, lookupVariable? w.source call.node = some u.variableName ∧
    ∃ ns, u.ns = some ns ∧ NamespaceAt w accessors call u.variableName ns
  nothing : ∀ name, lookupVariable? w.source call.node = some name →
    (∀ ns, ¬ NamespaceAt w accessors call name ns) → usages = []

theorem byAccessors_of_ofCall (hp : p.root.kind = .program)
    (hw : (Workplace.ofProgram p importer label).outcome = .ok w)
    (ha : (Accessor.ofProgram w).outcome = .ok accessors) {delimiter : Text} {call : Place}
    {usages : List Usage}
    (h : (ofCall w (fallbackOf accessors) delimiter call).outcome = .ok usages) :
    ByAccessors w accessors call usages := by
  unfold ofCall at h
  split at h
  · next hv =>
    cases h
    exact ⟨by simp, fun _ _ _ => rfl⟩
  · next name hv =>
    obtain ⟨o, ho, h⟩ := Traced.bind_ok_iff.1 h
    obtain ⟨hiff, hnone⟩ := namespaceOf_ok hp hw ha ho
    -- No usage without a namespace, and with one all usages have it.
    cases o with
    | none =>
      rw [hnone rfl] at h
      cases h
      exact ⟨by simp, fun _ _ _ => rfl⟩
    | some ns =>
      have hns := (hiff ns).1 rfl
      refine ⟨fun u hu => ?_, fun name' hn hno => ?_⟩
      · suffices hu : u.variableName = name ∧ u.ns = some ns by
          rw [hu.1]
          exact ⟨hv, ns, hu.2, hns⟩
        simp only [Option.isNone_some, Bool.false_and, Bool.false_eq_true, if_false] at h
        split at h
        · cases h
          simp at hu
        · obtain ⟨keys, -, h⟩ := Traced.bind_ok_iff.1 h
          cases h
          obtain ⟨key, -, rfl⟩ := List.mem_map.1 hu
          exact ⟨rfl, rfl⟩
      · rw [hv] at hn
        cases hn
        exact absurd hns (hno ns)

end Calls

end Usage

namespace Editor.Document

open Accessor (Workplace)

theorem usages_ok {d : Document} {usages : List Usage} (h : d.usages.outcome = .ok usages) :
    ∃ accessors, d.accessors.outcome = .ok accessors ∧
      ((Program.ofText d.code).outcome = .ok none ∧ usages = [] ∨
        ∃ p w, (Program.ofText d.code).outcome = .ok (some p) ∧
          (Workplace.ofProgram p d.importer d.label).outcome = .ok w ∧
          (Accessor.ofProgram w).outcome = .ok accessors ∧
          (Usage.ofProgram w (Usage.fallbackOf accessors) d.delimiter).outcome = .ok usages) := by
  rw [Document.usages, Traced.remembering_outcome] at h
  obtain ⟨accessors, ha, h⟩ := Traced.bind_ok_iff.1 h
  refine ⟨accessors, ha, ?_⟩
  obtain ⟨r, hr, ha⟩ := Traced.bind_ok_iff.1 ha
  obtain ⟨r', hr', h⟩ := Traced.bind_ok_iff.1 h
  rw [hr] at hr'
  cases hr'
  cases r with
  | none =>
    cases h
    exact .inl ⟨hr, rfl⟩
  | some p =>
    obtain ⟨w, hw, ha⟩ := Traced.bind_ok_iff.1 ha
    obtain ⟨w', hw', h⟩ := Traced.bind_ok_iff.1 h
    rw [hw] at hw'
    cases hw'
    exact .inr ⟨p, w, hr, hw, ha, h⟩

/-- **Both passes over a document agree on namespaces.** The usages of a document are those of its
calls in order; each has the namespace that the accessors reported for the document give its
variable at the call, which is the namespace of one of them with the name of the variable. -/
theorem usages_byAccessors {d : Document} {usages : List Usage}
    (h : d.usages.outcome = .ok usages) :
    ∃ accessors, d.accessors.outcome = .ok accessors ∧
      ((Program.ofText d.code).outcome = .ok none ∧ usages = [] ∨
        ∃ p w, (Program.ofText d.code).outcome = .ok (some p) ∧
          (Workplace.ofProgram p d.importer d.label).outcome = .ok w ∧
          (Accessor.ofProgram w).outcome = .ok accessors ∧
          ∃ found, usages = found.flatten ∧
            List.Forall₂ (fun call us =>
              (Usage.ofCall w (Usage.fallbackOf accessors) d.delimiter call).outcome = .ok us ∧
                Usage.ByAccessors w accessors call us) (w.placesOf .callExpression) found) ∧
      ∀ u ∈ usages, ∃ a ∈ accessors, a.variableName = u.variableName ∧
        ∃ ns, a.ns = .static ns ∧ u.ns = some ns := by
  obtain ⟨accessors, ha, hr⟩ := usages_ok h
  refine ⟨accessors, ha, ?_⟩
  rcases hr with ⟨hp, rfl⟩ | ⟨p, w, hp, hw, ha, h⟩
  · exact ⟨.inl ⟨hp, rfl⟩, by simp⟩
  · have hroot := Program.kind_root_of_ofText hp
    obtain ⟨found, hfound, h⟩ := Traced.bind_ok_iff.1 h
    cases h
    have hcalls := (Traced.mapM_ok_iff.1 hfound).imp fun call us hus =>
      And.intro hus (Usage.byAccessors_of_ofCall hroot hw ha hus)
    refine ⟨.inr ⟨p, w, hp, hw, ha, found, rfl, hcalls⟩, fun u hu => ?_⟩
    obtain ⟨us, hus, hu⟩ := List.mem_flatten.1 hu
    obtain ⟨call, -, -, hby⟩ := Pointwise.exists_of_mem_right hcalls hus
    obtain ⟨-, ns, hns, hat⟩ := hby.ns u hu
    obtain ⟨a, hmem, hname, hans⟩ := hat.exists_accessor hroot hw ha
    exact ⟨a, hmem, hname, ns, hans, hns⟩

/-- A document with two variables of one name, of which the outer one is bound to no namespace. -/
def twoAccessors : Document where
  code := text "const t=useTranslations('');\x7bconst t=useTranslations('a');t('b')\x7dt('c')"
  file := text "f.tsx"
  importer := none
  delimiter := Usage.defaultDelimiter

/-- The usages of `twoAccessors` have the namespaces of the variables that they are made through. -/
theorem usages_byAccessors_twoAccessors : ∃ usages, twoAccessors.usages.outcome = .ok usages ∧
    usages.map (fun u => (u.key, u.ns)) =
      [(text "a.b", some (text "a")), (text "c", some [])] ∧
    ∃ accessors, twoAccessors.accessors.outcome = .ok accessors ∧
      ∀ u ∈ usages, ∃ a ∈ accessors, a.variableName = u.variableName ∧
        ∃ ns, a.ns = .static ns ∧ u.ns = some ns := by
  have hkeys : (twoAccessors.usages.outcome.toOption.map fun us => us.map fun u => (u.key, u.ns)) =
      some [(text "a.b", some (text "a")), (text "c", some [])] := by decide +kernel
  cases h : twoAccessors.usages.outcome with
  | error e =>
    rw [h] at hkeys
    cases hkeys
  | ok usages =>
    rw [h] at hkeys
    obtain ⟨accessors, ha, -, hns⟩ := usages_byAccessors h
    exact ⟨usages, rfl, Option.some.inj hkeys, accessors, ha, hns⟩

end Editor.Document

end KeyTrace
