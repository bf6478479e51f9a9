/-
Which accessor of a name a namespace map goes by.

The map is set accessor by accessor, so under a name it has what was set last. The
static accessors fill one collection and the dynamic ones another, and the second
goes over the first; how the two sorts come mixed is therefore lost. An accessor
bound to the empty namespace sets nothing, so an earlier one of its name stays in
the map behind it.
-/
import KeyTrace.Analysis.Accessors
import Mathlib.Data.List.Induction
import Mathlib.Data.List.Nodup

namespace KeyTrace

namespace Named

variable {β : Type}

/-- The values that settings give a name, in order. -/
def under (name : Text) (settings : List (Text × β)) : List β :=
  settings.filterMap fun p => if p.1 = name then some p.2 else none

theorem get?_setAll_under (m : Named β) (name : Text) (settings : List (Text × β)) :
    get? (m.setAll settings) name = (under name settings).getLast?.or (get? m name) := by
  induction settings using List.reverseRecOn with
  | nil => rfl
  | append_singleton l p ih =>
    have hset : m.setAll (l ++ [p]) = set p.1 p.2 (m.setAll l) := List.foldl_append
    have hunder : under name (l ++ [p]) = under name l ++ under name [p] := List.filterMap_append
    rw [hset, get?_set, ih, hunder]
    by_cases h : p.1 = name
    · simp [under, h]
    · have h' : name ≠ p.1 := fun hn => h hn.symm
      simp [under, h, h']

theorem mem_keys_set {name k : Text} {b : β} {m : Named β}
    (h : k ∈ (set name b m).map (·.1)) : k = name ∨ k ∈ m.map (·.1) := by
  induction m with
  | nil => simpa [set] using h
  | cons p m ih =>
    rw [set] at h
    split at h
    · exact .inr h
    · rcases List.mem_cons.1 h with h | h
      · exact .inr (h ▸ List.mem_cons_self)
      · exact (ih h).imp_right (List.mem_cons_of_mem _)

theorem nodup_keys_set (name : Text) (b : β) {m : Named β} (h : (m.map (·.1)).Nodup) :
    ((set name b m).map (·.1)).Nodup := by
  induction m with
  | nil => simp [set]
  | cons p m ih =>
    obtain ⟨hp, hm⟩ := List.nodup_cons.1 h
    rw [set]
    split
    · exact h
    · next hne =>
      refine List.nodup_cons.2 ⟨fun hmem => ?_, ih hm⟩
      exact (mem_keys_set hmem).elim hne hp

theorem nodup_keys_setAll (settings : List (Text × β)) :
    ((setAll [] settings).map (·.1)).Nodup := by
  induction settings using List.reverseRecOn with
  | nil => simp [setAll]
  | append_singleton l p ih =>
    rw [setAll, List.foldl_append]
    exact nodup_keys_set p.1 p.2 ih

theorem under_of_nodup (name : Text) {m : Named β} (h : (m.map (·.1)).Nodup) :
    under name m = (get? m name).toList := by
  induction m with
  | nil => rfl
  | cons p m ih =>
    obtain ⟨k, b⟩ := p
    obtain ⟨hk, hm⟩ := List.nodup_cons.1 h
    have hcons : under name ((k, b) :: m) = if k = name then b :: under name m else under name m := by
      by_cases hn : k = name <;> simp [under, hn]
    have hget : get? ((k, b) :: m) name = if name = k then some b else get? m name := by
      rw [get?, List.lookup_cons]
      by_cases hn : name = k
      · simp [hn]
      · rw [beq_eq_false_iff_ne.2 hn, if_neg hn, get?]
    rw [hcons, ih hm, hget]
    by_cases hn : k = name
    · subst hn
      have hnone : get? m k = none := by
        refine List.lookup_eq_none_iff.2 fun q hq => ?_
        exact bne_iff_ne.2 fun he => hk (List.mem_map.2 ⟨q, hq, he.symm⟩)
      simp [hnone]
    · rw [if_neg hn, if_neg fun he => hn he.symm]

end Named

namespace NamespaceMap

/-- What an accessor sets in the map of namespaces. -/
def staticSetting? (a : Accessor) : Option (Text × Text) :=
  match a.ns with
  | .static (c :: cs) => some (a.variableName, c :: cs)
  | _ => none

/-- What an accessor sets in the map of placeholders. -/
def placeholderSetting? (a : Accessor) : Option (Text × Text) :=
  match a.ns with
  | .dynamic (c :: cs) => some (a.variableName, c :: cs)
  | _ => none

theorem static_eq_setAll (accessors : List Accessor) :
    static accessors = Named.setAll [] (accessors.filterMap staticSetting?) := by
  rw [static, Named.setAll, List.foldl_filterMap]
  congr 1
  funext m a
  rw [staticSetting?]
  rcases a.ns with (_ | _) | _ <;> rfl

theorem placeholders_eq_setAll (accessors : List Accessor) :
    placeholders accessors = Named.setAll [] (accessors.filterMap placeholderSetting?) := by
  rw [placeholders, Named.setAll, List.foldl_filterMap]
  congr 1
  funext m a
  rw [placeholderSetting?]
  rcases a.ns with _ | (_ | _) <;> rfl

/-- The namespaces of the static accessors of a name, in order. -/
def namespacesOf (accessors : List Accessor) (name : Text) : List Text :=
  accessors.filterMap fun a => if a.variableName = name then a.ns.static? else none

/-- The placeholders of the dynamic accessors of a name, in order. -/
def placeholdersOf (accessors : List Accessor) (name : Text) : List Text :=
  accessors.filterMap fun a =>
    match a.ns with
    | .dynamic p => if a.variableName = name then some p else none
    | .static _ => none

theorem get?_static_eq (accessors : List Accessor) (name : Text) :
    Named.get? (static accessors) name =
      ((namespacesOf accessors name).filter fun ns => !ns.isEmpty).getLast? := by
  rw [static_eq_setAll, Named.get?_setAll_under, Named.get?_nil, Option.or_none, Named.under,
    namespacesOf, List.filterMap_filterMap, List.filter_filterMap]
  congr 2
  funext a
  rw [staticSetting?]
  rcases a.ns with (_ | _) | _ <;> by_cases h : a.variableName = name <;>
    simp [Namespace.static?, Option.filter, h]

theorem get?_placeholders_eq {accessors : List Accessor} (h : ∀ a ∈ accessors, a.ns ≠ .dynamic [])
    (name : Text) :
    Named.get? (placeholders accessors) name = (placeholdersOf accessors name).getLast? := by
  rw [placeholders_eq_setAll, Named.get?_setAll_under, Named.get?_nil, Option.or_none, Named.under,
    placeholdersOf, List.filterMap_filterMap]
  congr 1
  refine List.filterMap_congr fun a ha => ?_
  have hne := h a ha
  rw [placeholderSetting?]
  rcases hns : a.ns with _ | (_ | _)
  · rfl
  · exact absurd hns hne
  · rfl

/-- With placeholders, a name goes by its last placeholder, and by its namespace only without one. -/
theorem get?_ofAccessors_eq {accessors : List Accessor} (h : ∀ a ∈ accessors, a.ns ≠ .dynamic [])
    (name : Text) :
    Named.get? (ofAccessors accessors true) name =
      (placeholdersOf accessors name).getLast?.or (Named.get? (static accessors) name) := by
  have hnodup : ((placeholders accessors).map (·.1)).Nodup := by
    rw [placeholders_eq_setAll]
    exact Named.nodup_keys_setAll _
  rw [ofAccessors, if_pos rfl, Named.get?_setAll_under, Named.under_of_nodup name hnodup,
    get?_placeholders_eq h]
  cases (placeholdersOf accessors name).getLast? <;> rfl

theorem getLast?_filter_isEmpty (l : List Text) :
    (l.filter fun t => !t.isEmpty).getLast? = l.getLast? ↔ l.getLast? ≠ some [] := by
  induction l using List.reverseRecOn with
  | nil => simp
  | append_singleton l t _ =>
    rw [List.filter_append, List.getLast?_concat]
    cases t with
    | nil =>
      refine iff_of_false (fun h => ?_) fun h => h rfl
      have hmem := List.mem_of_getLast? h
      simp at hmem
    | cons c cs => simp

/-- Lists of accessors with the same static ones and the same dynamic ones, each sort in its order,
have the same map. -/
theorem ofAccessors_interleaved {l l' : List Accessor}
    (hs : l.filter (·.ns.static?.isSome) = l'.filter (·.ns.static?.isSome))
    (hd : l.filter (·.ns.static?.isNone) = l'.filter (·.ns.static?.isNone)) (b : Bool) :
    ofAccessors l b = ofAccessors l' b := by
  have hstatic (l : List Accessor) : l.filterMap staticSetting? =
      (l.filter (·.ns.static?.isSome)).filterMap staticSetting? := by
    rw [List.filterMap_filter]
    refine List.filterMap_congr fun a _ => ?_
    rw [staticSetting?]
    rcases a.ns with (_ | _) | _ <;> rfl
  have hplaceholder (l : List Accessor) : l.filterMap placeholderSetting? =
      (l.filter (·.ns.static?.isNone)).filterMap placeholderSetting? := by
    rw [List.filterMap_filter]
    refine List.filterMap_congr fun a _ => ?_
    rw [placeholderSetting?]
    rcases a.ns with _ | (_ | _) <;> rfl
  rw [ofAccessors, ofAccessors, static_eq_setAll, static_eq_setAll, placeholders_eq_setAll,
    placeholders_eq_setAll, hstatic l, hstatic l', hplaceholder l, hplaceholder l', hs, hd]

/-- **Later accessors win in the namespace map, unless they are bound to the empty namespace.** Without
placeholders a name goes by the last namespace that is not empty among those of its static
accessors; that is the last of them all just when the last is not empty. With placeholders a name
goes by its last placeholder, and by what it had without if it has none. How static and dynamic
accessors come mixed makes no difference. -/
theorem get?_ofAccessors_last {accessors : List Accessor}
    (h : ∀ a ∈ accessors, a.ns ≠ .dynamic []) :
    (∀ name,
      Named.get? (ofAccessors accessors false) name =
          ((namespacesOf accessors name).filter fun ns => !ns.isEmpty).getLast? ∧
        (Named.get? (ofAccessors accessors false) name = (namespacesOf accessors name).getLast? ↔
          (namespacesOf accessors name).getLast? ≠ some []) ∧
        Named.get? (ofAccessors accessors true) name =
          (placeholdersOf accessors name).getLast?.or
            (Named.get? (ofAccessors accessors false) name)) ∧
    ∀ l : List Accessor,
      accessors.filter (·.ns.static?.isSome) = l.filter (·.ns.static?.isSome) →
      accessors.filter (·.ns.static?.isNone) = l.filter (·.ns.static?.isNone) →
      ∀ b, ofAccessors accessors b = ofAccessors l b := by
  refine ⟨fun name => ?_, fun l => ofAccessors_interleaved⟩
  have hget : Named.get? (ofAccessors accessors false) name =
      ((namespacesOf accessors name).filter fun ns => !ns.isEmpty).getLast? :=
    get?_static_eq accessors name
  refine ⟨hget, ?_, get?_ofAccessors_eq h name⟩
  rw [hget]
  exact getLast?_filter_isEmpty _

/-- An accessor by its name and namespace, at the start of a file. -/
def firstLine (name : String) (ns : Namespace) : Accessor := ⟨text name, ns, ⟨0, 0, 1⟩⟩

/-- Of `t` bound to `a`, to a placeholder and to `b`, the map has `b` without placeholders and the
placeholder with them, as with the placeholder in front. -/
theorem get?_ofAccessors_last_mixed :
    let l := [firstLine "t" (.static (text "a")), firstLine "t" (.dynamic (text "p")),
      firstLine "t" (.static (text "b")), firstLine "u" (.static (text "c"))]
    let l' := [firstLine "t" (.dynamic (text "p")), firstLine "t" (.static (text "a")),
      firstLine "t" (.static (text "b")), firstLine "u" (.static (text "c"))]
    Named.get? (ofAccessors l false) (text "t") = some (text "b") ∧
      Named.get? (ofAccessors l true) (text "t") = some (text "p") ∧
      Named.get? (ofAccessors l true) (text "u") = some (text "c") ∧
      ofAccessors l true = ofAccessors l' true := by
  intro l l'
  have hdynamic : ∀ a ∈ l, a.ns ≠ .dynamic [] := by decide
  obtain ⟨hnames, hmixed⟩ := get?_ofAccessors_last hdynamic
  obtain ⟨-, ht, htp⟩ := hnames (text "t")
  obtain ⟨-, hu, hup⟩ := hnames (text "u")
  have ht := ht.2 (by decide)
  have hu := hu.2 (by decide)
  refine ⟨ht, ?_, ?_, hmixed l' rfl rfl true⟩
  · rw [htp]
    rfl
  · rw [hup, hu]
    rfl

/-- `t` is bound to the empty namespace last, and the map still has the one before. -/
theorem get?_ofAccessors_emptyLast :
    let l := [firstLine "t" (.static (text "a")), firstLine "t" (.static [])]
    (namespacesOf l (text "t")).getLast? = some [] ∧
      Named.get? (ofAccessors l false) (text "t") = some (text "a") := by
  decide

end NamespaceMap
end KeyTrace
