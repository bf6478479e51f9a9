/-
Every key with a namespace has a range.

The ranges of a document come from a second run over its calls, in which
placeholders go before namespaces. What a variable is bound to by its own
declaration is the same in both runs, and a name that the first map has the
second has too; so a call that looks up qualified keys in the first run looks up
as many in the second, at the same places.
-/
import KeyTrace.Proofs.Analysis.Calls
import KeyTrace.Proofs.Analysis.Escapes
import KeyTrace.Proofs.Analysis.Namespaces

namespace KeyTrace

namespace Named

variable {β : Type}

theorem get?_setAll (more : Named β) (name : Text) : ∀ m : Named β,
    (∃ b, (name, b) ∈ more ∧ get? (m.setAll more) name = some b) ∨
      get? (m.setAll more) name = get? m name := by
  induction more with
  | nil => exact fun m => .inr rfl
  | cons p more ih =>
    intro m
    rcases ih (set p.1 p.2 m) with ⟨b, hb, h⟩ | h
    · exact .inl ⟨b, List.mem_cons_of_mem _ hb, h⟩
    · have hset : get? (m.setAll (p :: more)) name =
          if name = p.1 then some p.2 else get? m name := h.trans (get?_set m p.1 name p.2)
      by_cases hn : name = p.1
      · rw [if_pos hn] at hset
        exact .inl ⟨p.2, by rw [hn]; exact List.mem_cons_self, hset⟩
      · rw [if_neg hn] at hset
        exact .inr hset

theorem mem_set {name n : Text} {b b' : β} {m : Named β} (h : (n, b) ∈ set name b' m) :
    (n = name ∧ b = b') ∨ (n, b) ∈ m := by
  induction m with
  | nil => simpa [set] using h
  | cons p m ih =>
    obtain ⟨k, v⟩ := p
    rw [set] at h
    split at h
    · next hk =>
      subst hk
      rcases List.mem_cons.1 h with h | h
      · cases h
        exact .inl ⟨rfl, rfl⟩
      · exact .inr (List.mem_cons_of_mem _ h)
    · rcases List.mem_cons.1 h with h | h
      · exact .inr (h ▸ List.mem_cons_self)
      · exact (ih h).imp_right (List.mem_cons_of_mem _)

end Named

namespace NamespaceMap

theorem exists_of_mem_placeholders {accessors : List Accessor} {name ph : Text}
    (h : (name, ph) ∈ placeholders accessors) :
    ph ≠ [] ∧ ∃ a ∈ accessors, a.variableName = name ∧ a.ns = .dynamic ph := by
  induction accessors using List.reverseRecOn with
  | nil => cases h
  | append_singleton l a ih =>
    have hl (h : (name, ph) ∈ placeholders l) :
        ph ≠ [] ∧ ∃ b ∈ l ++ [a], b.variableName = name ∧ b.ns = .dynamic ph := by
      obtain ⟨hne, b, hb, hnb⟩ := ih h
      exact ⟨hne, b, List.mem_append_left _ hb, hnb⟩
    rw [placeholders, List.foldl_append, List.foldl_cons, List.foldl_nil] at h
    split at h
    · next c cs hns =>
      rcases Named.mem_set h with ⟨rfl, rfl⟩ | h
      · exact ⟨by simp, a, by simp, rfl, hns⟩
      · exact hl h
    · exact hl h

/-- With placeholders, a map has what it has without them, or a placeholder in its place. -/
theorem get?_ofAccessors (accessors : List Accessor) (name : Text) :
    (∃ ph, ph ≠ [] ∧ (∃ a ∈ accessors, a.variableName = name ∧ a.ns = .dynamic ph) ∧
      Named.get? (ofAccessors accessors true) name = some ph) ∨
    Named.get? (ofAccessors accessors true) name = last? accessors name := by
  rw [ofAccessors, if_pos rfl]
  rcases Named.get?_setAll (placeholders accessors) name (static accessors) with ⟨ph, hm, h⟩ | h
  · obtain ⟨hne, ha⟩ := exists_of_mem_placeholders hm
    exact .inl ⟨ph, hne, ha, h⟩
  · exact .inr (h.trans (get?_static accessors name))

theorem exists_last? {accessors : List Accessor} {a : Accessor} (ha : a ∈ accessors) {ns : Text}
    (hns : a.ns = .static ns) (hne : ns ≠ []) : ∃ v, last? accessors a.variableName = some v := by
  rw [← Option.isSome_iff_exists, last?, List.findSome?_isSome_iff]
  obtain ⟨c, cs, rfl⟩ := List.exists_cons_of_ne_nil hne
  exact ⟨a, List.mem_reverse.2 ha, by rw [hns]; simp⟩

end NamespaceMap

namespace Usage

open Accessor (Workplace Reports)
open Editor (ScopeRange)

/-- A usage has a namespace, and not the empty one. -/
def isQualified (u : Usage) : Bool :=
  match u.ns with
  | some (_ :: _) => true
  | _ => false

/-- The fallback of a document in which placeholders count as namespaces. -/
def placeholderFallbackOf (accessors : List Accessor) : Fallback :=
  (NamespaceMap.ofAccessors accessors true).map fun p => (p.1, some p.2)

/-- A variable has no namespace by its own declaration at a call. -/
def Unresolved (w : Workplace) (call : Place) (name : Text) : Prop :=
  ∀ d a, w.scopes.resolve (w.scopes.scopeFor call) name = some (.declared d) →
    Reports w d a → a.ns.static? = none

/-- A range is that of a usage at a call: it lies where the usage lies, and its namespace is that of
the usage or a placeholder for a variable that has none of its own there. -/
structure HasRange (w : Workplace) (accessors : List Accessor) (delimiter : Text) (call : Place)
    (u : Usage) (r : ScopeRange) : Prop where
  usage : ∃ us, (ofCall w (fallbackOf accessors) delimiter call).outcome = .ok us ∧ u ∈ us
  start : r.start = u.start
  stop : r.stop = u.stop
  ns : u.ns = some r.ns ∨ (Unresolved w call u.variableName ∧
    ∃ a ∈ accessors, a.variableName = u.variableName ∧ a.ns = .dynamic r.ns)

/-- Every qualified usage of a list has a range among others, in the same order. -/
def HaveRanges (w : Workplace) (accessors : List Accessor) (delimiter : Text) (us : List Usage)
    (ranges : List ScopeRange) : Prop :=
  ∃ matched, matched.Sublist ranges ∧
    List.Forall₂ (fun u r => ∃ call ∈ w.placesOf .callExpression,
      HasRange w accessors delimiter call u r) (us.filter isQualified) matched

variable {p : Program} {importer : Option Importer} {label : Text} {w : Workplace}
  {accessors : List Accessor} {delimiter : Text}

theorem HaveRanges.none {us : List Usage} (h : us.filter isQualified = [])
    (ranges : List ScopeRange) : HaveRanges w accessors delimiter us ranges :=
  ⟨[], List.nil_sublist _, h ▸ .nil⟩

theorem HaveRanges.ne_nil {us : List Usage} {ranges : List ScopeRange}
    (h : HaveRanges w accessors delimiter us ranges) (hus : us.filter isQualified ≠ []) :
    ranges ≠ [] := by
  rintro rfl
  obtain ⟨matched, hsub, hf⟩ := h
  rw [List.sublist_nil.1 hsub, List.forall₂_nil_right_iff] at hf
  exact hus hf

theorem HaveRanges.append {us us' : List Usage} {ranges ranges' : List ScopeRange}
    (h : HaveRanges w accessors delimiter us ranges) (h' : HaveRanges w accessors delimiter us' ranges') :
    HaveRanges w accessors delimiter (us ++ us') (ranges ++ ranges') := by
  obtain ⟨m, hm, hf⟩ := h
  obtain ⟨m', hm', hf'⟩ := h'
  refine ⟨m ++ m', hm.append hm', ?_⟩
  rw [List.filter_append]
  exact List.rel_append hf hf'

theorem HaveRanges.flatten {found : List (List Usage)} {ranges : List (List ScopeRange)}
    (h : List.Forall₂ (HaveRanges w accessors delimiter) found ranges) :
    HaveRanges w accessors delimiter found.flatten ranges.flatten := by
  induction h with
  | nil => exact .none rfl _
  | cons h _ ih => exact h.append ih

theorem rangesOf_flatten (found : List (List Usage)) :
    Editor.Document.rangesOf found.flatten = (found.map Editor.Document.rangesOf).flatten := by
  exact List.filterMap_flatten

theorem filter_atCall_nil (first : Node) (name : Text) (keys : List Text) :
    (atCall w delimiter first name (some []) keys).filter isQualified = [] := by
  simp [atCall, isQualified]

/-- The usages of a call have ranges if the second run finds the same keys there, the namespace being
the same or a placeholder. -/
theorem haveRanges_atCall {call : Place} (hc : call ∈ w.placesOf .callExpression)
    {first : Node} {name : Text} {keys : List Text} {ns ns' : Text}
    (hus : (ofCall w (fallbackOf accessors) delimiter call).outcome =
      .ok (atCall w delimiter first name (some ns) keys)) (hns' : ns ≠ [] → ns' ≠ [])
    (h : ns = ns' ∨ (Unresolved w call name ∧
      ∃ a ∈ accessors, a.variableName = name ∧ a.ns = .dynamic ns')) :
    HaveRanges w accessors delimiter (atCall w delimiter first name (some ns) keys)
      (Editor.Document.rangesOf (atCall w delimiter first name (some ns') keys)) := by
  cases ns with
  | nil => exact .none (filter_atCall_nil ..) _
  | cons c cs =>
    obtain ⟨c', cs', rfl⟩ := List.exists_cons_of_ne_nil (hns' (by simp))
    refine ⟨_, .refl _, ?_⟩
    have hf : (atCall w delimiter first name (some (c :: cs)) keys).filter isQualified =
        atCall w delimiter first name (some (c :: cs)) keys :=
      List.filter_eq_self.2 fun u hu => by
        obtain ⟨key, -, rfl⟩ := List.mem_map.1 hu
        rfl
    have hr : Editor.Document.rangesOf (atCall w delimiter first name (some (c' :: cs')) keys) =
        keys.map fun _ => ⟨w.source.charOffset first.span.start,
          w.source.charOffset first.span.stop, c' :: cs'⟩ := by
      simp [Editor.Document.rangesOf, atCall, List.filterMap_map]
    rw [hf, hr]
    refine List.forall₂_map_left_iff.2 (List.forall₂_map_right_iff.2 (List.forall₂_same.2 ?_))
    exact fun key hk => ⟨call, hc, ⟨_, hus, List.mem_map_of_mem hk⟩, rfl, rfl,
      h.imp_left (congrArg some)⟩

/-- A namespace that the first run finds, the second finds too, or a placeholder in its place. -/
theorem namespaceOf_placeholders (hp : p.root.kind = .program)
    (hw : (Workplace.ofProgram p importer label).outcome = .ok w)
    (ha : (Accessor.ofProgram w).outcome = .ok accessors) {call : Place} {name ns : Text}
    (hns : (namespaceOf w (fallbackOf accessors) (w.scopes.scopeFor call) name).outcome =
      .ok (some ns)) {o : Option Text}
    (ho : (namespaceOf w (placeholderFallbackOf accessors) (w.scopes.scopeFor call) name).outcome =
      .ok o) :
    ∃ ns', o = some ns' ∧ (ns ≠ [] → ns' ≠ []) ∧
      (ns = ns' ∨ (Unresolved w call name ∧
        ∃ a ∈ accessors, a.variableName = name ∧ a.ns = .dynamic ns')) := by
  obtain ⟨own, hown, hns⟩ := Traced.bind_ok_iff.1 hns
  obtain ⟨own', hown', ho⟩ := Traced.bind_ok_iff.1 ho
  rw [hown] at hown'
  cases hown'
  -- A namespace of its own is the same in both runs. Without one each run asks its map, and only
  -- then can a placeholder come in.
  cases own with
  | some n =>
    cases hns
    cases ho
    exact ⟨ns, rfl, id, .inl rfl⟩
  | none =>
    rw [Traced.pure_outcome, Except.ok.injEq, get?_fallbackOf, Option.bind_eq_some_iff] at hns
    obtain ⟨v, hv, rfl⟩ := hns
    obtain ⟨_, hlast, ⟨⟩⟩ := Option.map_eq_some_iff.1 hv
    rw [Traced.pure_outcome, Except.ok.injEq, placeholderFallbackOf,
      NamespaceMap.get?_map_some] at ho
    have hun : Unresolved w call name := fun d a hd hr => by
      cases hans : a.ns with
      | dynamic => rfl
      | static n => exact absurd ((own_eq_some_iff hp hw ha hown n).2 ⟨d, a, hd, hr, hans⟩) (by simp)
    rcases NamespaceMap.get?_ofAccessors accessors name with ⟨ph, hne, hph, hget⟩ | hget
    · rw [hget] at ho
      exact ⟨ph, ho.symm, fun _ => hne, .inr ⟨hun, hph⟩⟩
    · rw [hget, hlast] at ho
      exact ⟨ns, ho.symm, id, .inl rfl⟩

theorem haveRanges_ofCall (hp : p.root.kind = .program)
    (hw : (Workplace.ofProgram p importer label).outcome = .ok w)
    (ha : (Accessor.ofProgram w).outcome = .ok accessors) {call : Place}
    (hc : call ∈ w.placesOf .callExpression) {us us' : List Usage}
    (h : (ofCall w (fallbackOf accessors) delimiter call).outcome = .ok us)
    (h' : (ofCall w (placeholderFallbackOf accessors) delimiter call).outcome = .ok us') :
    HaveRanges w accessors delimiter us (Editor.Document.rangesOf us') := by
  cases hv : lookupVariable? w.source call.node with
  | none =>
    simp only [ofCall, hv] at h
    cases h
    exact .none rfl _
  | some name =>
    have hus := h
    obtain ⟨o, ho, h⟩ := ofCall_ok_cases h hv
    obtain ⟨o', ho', h'⟩ := ofCall_ok_cases h' hv
    rcases h with ⟨-, rfl⟩ | ⟨first, rest, keys, hargs, hkeys, rfl⟩
    · exact .none rfl _
    · cases o with
      | none => exact .none (by simp [atCall, isQualified]) _
      | some ns =>
        obtain ⟨ns', rfl, hne, hns⟩ := namespaceOf_placeholders hp hw ha ho ho'
        rcases h' with ⟨hnone | hnone, -⟩ | ⟨first', rest', keys', hargs', hkeys', rfl⟩
        · rw [hargs] at hnone
          cases hnone
        · cases hnone.1
        · rw [hargs] at hargs'
          cases hargs'
          rw [hkeys] at hkeys'
          cases hkeys'
          exact haveRanges_atCall hc hus hne hns

theorem haveRanges_ofProgram (hp : p.root.kind = .program)
    (hw : (Workplace.ofProgram p importer label).outcome = .ok w)
    (ha : (Accessor.ofProgram w).outcome = .ok accessors) {us us' : List Usage}
    (h : (ofProgram w (fallbackOf accessors) delimiter).outcome = .ok us)
    (h' : (ofProgram w (placeholderFallbackOf accessors) delimiter).outcome = .ok us') :
    HaveRanges w accessors delimiter us (Editor.Document.rangesOf us') := by
  obtain ⟨found, hf, h⟩ := Traced.bind_ok_iff.1 h
  obtain ⟨found', hf', h'⟩ := Traced.bind_ok_iff.1 h'
  cases h
  cases h'
  rw [rangesOf_flatten]
  exact .flatten (List.forall₂_map_right_iff.2 (Pointwise.compose (Traced.mapM_ok_iff.1 hf) (Traced.mapM_ok_iff.1 hf')
    fun call hc us us' h h' => haveRanges_ofCall hp hw ha hc h h'))

/-- The qualified usages of a text have ranges. -/
theorem haveRanges_discover {code : Text} (hp : (Program.ofText code).outcome = .ok (some p))
    (hw : (Workplace.ofProgram p importer label).outcome = .ok w)
    (ha : (Accessor.ofProgram w).outcome = .ok accessors) {us us' : List Usage}
    (h : (ofProgram w (fallbackOf accessors) delimiter).outcome = .ok us)
    (h' : (discover code (placeholderFallbackOf accessors) importer delimiter label).outcome = .ok us') :
    HaveRanges w accessors delimiter us (Editor.Document.rangesOf us') := by
  obtain ⟨read, hp', h'⟩ := Traced.bind_ok_iff.1 h'
  rw [hp] at hp'
  cases hp'
  obtain ⟨w', hw', h'⟩ := Traced.bind_ok_iff.1 h'
  rw [hw] at hw'
  cases hw'
  exact haveRanges_ofProgram (Program.kind_root_of_ofText hp) hw ha h h'

end Usage

namespace Editor.Document

open Accessor (Workplace)

theorem ranges_ok {d : Document} {ranges : List ScopeRange} {accessors : List Accessor}
    (h : d.ranges.outcome = .ok ranges) (ha : d.accessors.outcome = .ok accessors) :
    (NamespaceMap.ofAccessors accessors true = [] ∧ ranges = restOfDocument d.code) ∨
      (NamespaceMap.ofAccessors accessors true ≠ [] ∧
        ∃ us, (Usage.discover d.code (Usage.placeholderFallbackOf accessors) d.importer d.delimiter
          d.label).outcome = .ok us ∧
        ranges = if (rangesOf us).isEmpty then restOfDocument d.code else rangesOf us) := by
  rw [Document.ranges, Traced.remembering_outcome] at h
  obtain ⟨accessors', ha', h⟩ := Traced.bind_ok_iff.1 h
  rw [ha] at ha'
  cases ha'
  dsimp only at h
  split at h
  · next hnone =>
    cases h
    exact .inl ⟨List.isEmpty_iff.1 hnone, rfl⟩
  · next hsome =>
    obtain ⟨us, hus, h⟩ := Traced.bind_ok_iff.1 h
    cases h
    exact .inr ⟨fun h => hsome (List.isEmpty_iff.2 h), us, hus, rfl⟩

theorem ofAccessors_ne_nil {accessors : List Accessor} {a : Accessor} (ha : a ∈ accessors)
    {ns : Text} (hns : a.ns = .static ns) (hne : ns ≠ []) :
    NamespaceMap.ofAccessors accessors true ≠ [] := by
  obtain ⟨v, hv⟩ := NamespaceMap.exists_last? ha hns hne
  intro hnil
  rcases NamespaceMap.get?_ofAccessors accessors a.variableName with ⟨ph, -, -, h⟩ | h
  · rw [hnil] at h
    cases h
  · rw [hnil, hv] at h
    cases h

/-- The ranges of a document have all that its usages ask for: every qualified usage has its range
among them in the same order, and if there is such a usage, they are those of the second run and not
the rest of the document. -/
structure Covered (d : Document) (accessors : List Accessor) (usages : List Usage)
    (ranges : List ScopeRange) : Prop where
  haveRanges : (Program.ofText d.code).outcome = .ok none ∧ usages = [] ∨
    ∃ p w, (Program.ofText d.code).outcome = .ok (some p) ∧
      (Workplace.ofProgram p d.importer d.label).outcome = .ok w ∧
      Usage.HaveRanges w accessors d.delimiter usages ranges
  secondRun : (∃ u ∈ usages, u.isQualified = true) →
    NamespaceMap.ofAccessors accessors true ≠ [] ∧
      ∃ us, (Usage.discover d.code (Usage.placeholderFallbackOf accessors) d.importer
        d.delimiter d.label).outcome = .ok us ∧ ranges = rangesOf us

theorem covered_of_ok {d : Document} {usages : List Usage} {ranges : List ScopeRange}
    (h : d.usages.outcome = .ok usages) (hr : d.ranges.outcome = .ok ranges) :
    ∃ accessors, d.accessors.outcome = .ok accessors ∧ d.Covered accessors usages ranges := by
  obtain ⟨accessors, ha, hu⟩ := usages_ok h
  obtain ⟨accessors', ha', -, hns⟩ := usages_byAccessors h
  rw [ha] at ha'
  cases ha'
  refine ⟨accessors, ha, ?_⟩
  have hmap : (∃ u ∈ usages, u.isQualified = true) →
      NamespaceMap.ofAccessors accessors true ≠ [] := by
    rintro ⟨u, hmem, hq⟩
    obtain ⟨a, hmema, -, ns, hans, huns⟩ := hns u hmem
    refine ofAccessors_ne_nil hmema hans ?_
    rintro rfl
    rw [Usage.isQualified, huns] at hq
    cases hq
  rcases hu with ⟨hp, rfl⟩ | ⟨p, w, hp, hw, ha', hu⟩
  · exact ⟨.inl ⟨hp, rfl⟩, by simp⟩
  -- Without a qualified usage there is nothing to cover; with one the second run has a range.
  · by_cases hq : usages.filter Usage.isQualified = []
    · refine ⟨.inr ⟨p, w, hp, hw, .none hq _⟩, fun ⟨u, hmem, hqu⟩ => ?_⟩
      exact absurd hqu (List.filter_eq_nil_iff.1 hq u hmem)
    · obtain ⟨u, hmem⟩ := List.exists_mem_of_ne_nil _ hq
      obtain ⟨hne, us, hus, hranges⟩ :=
        (ranges_ok hr ha).resolve_left fun h => hmap ⟨u, List.mem_filter.1 hmem⟩ h.1
      have hhave := Usage.haveRanges_discover hp hw ha' hu hus
      have hsome := List.isEmpty_eq_false_iff.2 (hhave.ne_nil hq)
      rw [hsome, if_neg (by simp)] at hranges
      rw [hranges]
      exact ⟨.inr ⟨p, w, hp, hw, hhave⟩, fun _ => ⟨hne, us, hus, rfl⟩⟩

theorem accessors_blames (d : Document) : d.accessors.Blames d.importer :=
  Accessor.discover_blames _ _ _

theorem usages_blames (d : Document) : d.usages.Blames d.importer := by
  refine Traced.Blames.bind d.accessors_blames fun _ _ => ?_
  exact Usage.discover_blames _ _ _ _ _

theorem ranges_blames (d : Document) : d.ranges.Blames d.importer := by
  refine Traced.Blames.bind d.accessors_blames fun accessors _ => ?_
  dsimp only
  split
  · exact .pure _
  · exact .bind (Usage.discover_blames _ _ _ _ _) fun _ _ => .pure _

/-- **The ranges of a document cover its qualified keys.** If the importer answers, a document has
usages and ranges; and whatever these are, the places of the usages with a namespace are among those
of the ranges in the same order, each range having the namespace of its usage, or else, where the
declaration of the variable gives it none, the placeholder of an accessor of its name. -/
theorem ranges_cover (d : Document) :
    (Fold.Answers d.importer → ∃ usages ranges, d.usages.outcome = .ok usages ∧
      d.ranges.outcome = .ok ranges) ∧
    ∀ usages ranges, d.usages.outcome = .ok usages → d.ranges.outcome = .ok ranges →
      ∃ accessors, d.accessors.outcome = .ok accessors ∧ d.Covered accessors usages ranges := by
  refine ⟨fun ha => ?_, fun _ _ h hr => covered_of_ok h hr⟩
  obtain ⟨usages, h⟩ := Fold.returns_of_blames d.usages_blames ha
  obtain ⟨ranges, hr⟩ := Fold.returns_of_blames d.ranges_blames ha
  exact ⟨usages, ranges, h, hr⟩

/-- A document in which the inner of two variables of one name has a namespace that is not known. -/
def mixedAccessors : Document where
  code := text "const t=useTranslations('a');t('b');\x7bconst t=useTranslations(x);t('c')\x7d"
  file := text "f.tsx"
  importer := none
  delimiter := Usage.defaultDelimiter

/-- The range of the inner key of `mixedAccessors` has a placeholder for its namespace. -/
theorem ranges_cover_mixedAccessors : ∃ usages ranges accessors,
    mixedAccessors.usages.outcome = .ok usages ∧ mixedAccessors.ranges.outcome = .ok ranges ∧
    usages.map (fun u => (u.start, u.stop, u.ns)) =
      [(31, 34, some (text "a")), (66, 69, some (text "a"))] ∧
    ranges = [⟨31, 34, text "a"⟩, ⟨66, 69, text "<dynamic:f.tsx:L1>"⟩] ∧
    mixedAccessors.Covered accessors usages ranges := by
  obtain ⟨hanswers, hcover⟩ := ranges_cover mixedAccessors
  obtain ⟨usages, ranges, h, hr⟩ := hanswers nofun
  obtain ⟨accessors, -, hcovered⟩ := hcover usages ranges h hr
  have hus : (mixedAccessors.usages.outcome.toOption.map fun us =>
      us.map fun u => (u.start, u.stop, u.ns)) =
      some [(31, 34, some (text "a")), (66, 69, some (text "a"))] := by decide +kernel
  have hrs : mixedAccessors.ranges.outcome.toOption =
      some [⟨31, 34, text "a"⟩, ⟨66, 69, text "<dynamic:f.tsx:L1>"⟩] := by decide +kernel
  rw [h] at hus
  rw [hr] at hrs
  exact ⟨usages, ranges, accessors, h, hr, Option.some.inj hus, Option.some.inj hrs, hcovered⟩

end Editor.Document
end KeyTrace
