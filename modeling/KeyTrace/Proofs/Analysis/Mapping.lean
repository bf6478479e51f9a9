/-
Keys looked up through the items of a list that is mapped over.

A call whose argument is no string looks a key up for every element of a list, if the
argument is the item of the list or a property of it (`Expands`). What the item of a list
is can be read off the tree: the first parameter of the one function that `list.map` is
called with, seen from inside that function.
-/
import KeyTrace.Proofs.Analysis.Calls
import KeyTrace.Proofs.Analysis.Escapes
import KeyTrace.Proofs.Fold.Derivations
import KeyTrace.Proofs.Grammar.Apart
import KeyTrace.Proofs.Scope.Parameters

namespace KeyTrace.Usage

open Accessor (Workplace)
open Fold (constant Answers)

section Items

variable {source : Source} {function mapping : Place} {list : Node}

/-- A function is all that `list.map` is called with. -/
structure MapsOver (source : Source) (function mapping : Place) (list : Node) : Prop where
  argument : ∃ a, function.up? = some a ∧ a.node.kind = .arguments ∧
    a.node.children = [function.node] ∧ a.up? = some mapping
  call : mapping.node.shape = .call
  callee : ∃ c property, mapping.node.child? .function = some c ∧ c.shape = .member ∧
    c.child? .property = some property ∧ property.text source = text "map" ∧
    c.child? .object = some list
  list : list.shape = .identifier

theorem children_eq_singleton {root : Node} {a : Place}
    (hf : function ∈ (Place.root root).preorder) (hk : function.node.isComment = false)
    (ha : function.up? = some a) (hl : a.node.children.length = 1) :
    a.node.children = [function.node] := by
  obtain ⟨n, above⟩ := function
  cases above with
  | nil => cases ha
  | cons b bs =>
    cases ha
    have hmem : n ∈ b.children :=
      List.mem_filter.2 ⟨Place.mem_allChildren_of_up hf, by simpa using hk⟩
    obtain ⟨c, hc⟩ := List.length_eq_one_iff.1 hl
    rw [hc] at hmem
    rw [hc, List.mem_singleton.1 hmem]

theorem mapCall?_eq_some_iff {root : Node} (hf : function ∈ (Place.root root).preorder)
    (hk : function.node.isComment = false) :
    mapCall? source function = some (mapping, list) ↔ MapsOver source function mapping list := by
  constructor
  · intro h
    unfold mapCall? at h
    split at h
    · cases h
    next a ha =>
    split at h
    · cases h
    next hargs =>
    rw [not_or, not_not, not_not] at hargs
    split at h
    · cases h
    next call hcall =>
    split at h
    · cases h
    next hshape =>
    split at h
    · cases h
    next c hc =>
    split at h
    · cases h
    next hmember =>
    split at h
    · next property o hproperty hobject =>
      split at h
      · next hmap =>
        cases h
        exact ⟨⟨a, ha, hargs.1, children_eq_singleton hf hk ha hargs.2, hcall⟩, not_not.1 hshape,
          ⟨c, property, hc, not_not.1 hmember, hproperty, hmap.1, hobject⟩, hmap.2⟩
      · cases h
    · cases h
  · rintro ⟨⟨a, ha, hargs, hchildren, hcall⟩, hshape, ⟨c, property, hc, hmember, hproperty, hmap,
      hobject⟩, hlist⟩
    simp [mapCall?, ha, hargs, hchildren, hcall, hshape, hc, hmember, hproperty, hobject, hmap,
      hlist]

/-- A name at a place is the item of a list: by the lexical rule it means the first parameter of a
function around the place, which is that name, with a type or a default value or without, and the
function is all that `list.map` is called with. -/
def IsItem (source : Source) (ds : List Declaration) (place : Place) (name : Text)
    (mapping : Place) (list : Node) : Prop :=
  ∃ function ∈ place.regions, ∃ parameter,
    (ScopeTree.parametersOf function).head? = some parameter ∧
    parameter.peel.node.kind = .identifier ∧ parameter.peel.node.text source = name ∧
    (∃ simple, Declaration.meaning? ds place name =
      some (.parameter parameter.peel function 0 simple)) ∧
    MapsOver source function mapping list

end Items

section Lists

variable {w : Workplace} {ds : List Declaration} {place mapping : Place} {name : Text} {list : Node}

/-- The scopes of a workplace follow the lexical rule for the declarations of its program. -/
structure Lexical (w : Workplace) (ds : List Declaration) : Prop where
  declarations : ∃ imports, ds = Declaration.ofProgram w.program imports
  apart : w.program.root.ScopesApart
  meaning : ∀ q ∈ (Place.root w.program.root).preorder, ∀ x,
    w.scopes.resolve (w.scopes.scopeFor q) x = Declaration.meaning? ds q x

theorem lexical_of_read {doc : Document} {grammars : List Text} {p : Program}
    (hp : (Program.read doc grammars).outcome = .ok (some p)) {imports : List (Text × Import)}
    (hi : Import.ofProgram p = .ok imports) {importer : Option Importer} {label : Text}
    (hw : (Workplace.ofProgram p importer label).outcome = .ok w) :
    Lexical w (Declaration.ofProgram p imports) := by
  have hroot := Program.kind_root_of_read hp
  have hapart := Program.scopesApart_of_read hp
  obtain ⟨t, ht, hw⟩ := Traced.bind_ok_iff.1 hw
  obtain ⟨t', ht', hcovers⟩ := ScopeTree.ofProgram_covers hi hroot
  cases hw
  cases (Traced.ofCooked_ok_iff.1 ht).symm.trans ht'
  exact ⟨⟨imports, rfl⟩, hapart, fun q hq => hcovers.meaning?_eq hroot hapart hq⟩

theorem isComment_of_isFunction {n : Node} (h : n.kind.isFunction = true) :
    n.isComment = false := by
  rw [Node.isComment, beq_eq_false_iff_ne]
  intro hk
  rw [hk] at h
  cases h

theorem mappedList_of_isItem (hl : Lexical w ds) (hp : place ∈ (Place.root w.program.root).preorder)
    (h : IsItem w.source ds place name mapping list) :
    mappedList w (w.scopes.resolve (w.scopes.scopeFor place) name) =
      constant (w.context (w.scopes.scopeFor mapping)) 0 (some list) := by
  obtain ⟨function, -, parameter, hfirst, hk, -, ⟨simple, hm⟩, hmaps⟩ := h
  obtain ⟨imports, rfl⟩ := hl.declarations
  obtain ⟨hf, -, hfunction, -, q, hq, -, rfl⟩ :=
    Declaration.parameter_of_meaning? hl.apart hp hm
  obtain rfl : parameter = q := by
    rw [List.head?_eq_getElem?, hq] at hfirst
    exact (Option.some.inj hfirst).symm
  have hsimple : (parameter.patternNames.length == 1 && parameter.peel.node.kind == .identifier) =
      true := by simp [Place.patternNames_of_peel hk, hk]
  have hcall := (mapCall?_eq_some_iff hf (isComment_of_isFunction hfunction)).2 hmaps
  rw [hl.meaning _ hp, hm, hsimple]
  simp only [mappedList, hcall]

theorem isItem_of_mappedList (hl : Lexical w ds) (hp : place ∈ (Place.root w.program.root).preorder)
    {v : Folded}
    (h : (mappedList w (w.scopes.resolve (w.scopes.scopeFor place) name)).outcome = .ok v)
    (hv : v ≠ .dynamic) :
    ∃ mapping list, IsItem w.source ds place name mapping list ∧
      (constant (w.context (w.scopes.scopeFor mapping)) 0 (some list)).outcome = .ok v := by
  rw [hl.meaning _ hp] at h
  unfold mappedList at h
  split at h
  · next d function hm =>
    split at h
    · next mapping list hcall =>
      obtain ⟨imports, rfl⟩ := hl.declarations
      obtain ⟨hf, hregion, hfunction, hname, q, hq, hd, hsimple⟩ :=
        Declaration.parameter_of_meaning? hl.apart hp hm
      -- the parameter binds one name, and the name is all of it
      rw [eq_comm, Bool.and_eq_true] at hsimple
      have hk := beq_iff_eq.1 hsimple.2
      rw [Place.patternNames_of_peel hk, List.mem_singleton] at hd
      subst hd
      refine ⟨mapping, list, ⟨function, hregion, q, ?_, hk, hname, ⟨_, hm⟩, ?_⟩, h⟩
      · rw [List.head?_eq_getElem?, hq]
      · exact (mapCall?_eq_some_iff hf (isComment_of_isFunction hfunction)).1 hcall
    · exact absurd (Except.ok.inj h).symm hv
  · exact absurd (Except.ok.inj h).symm hv

end Lists

section Keys

variable {w : Workplace} {ds : List Declaration} {place mapping : Place} {argument a : Node}
  {keys : List Text}

/-- The values of a property of the items that have it, without the empty ones. -/
def itemValues (property : Text) (items : List Record) : List Text :=
  items.filterMap fun r => (Named.get? r property).filter fun v => !v.isEmpty

/-- The keys that an argument at a place stands for, if it runs over a list: for the item of the
list its strings, and for a plain property of the item the values that the records of the list have.
A list that is neither has none. -/
inductive Expands (w : Workplace) (ds : List Declaration) (place : Place) (argument : Node) :
    List Text → Prop
  | item {a list : Node} {mapping : Place} {v : Folded} : argument.unwrap? = some a →
      a.shape = .identifier → IsItem w.source ds place (a.text w.source) mapping list →
      (constant (w.context (w.scopes.scopeFor mapping)) 0 (some list)).outcome = .ok v →
      Expands w ds place argument (v.strings?.getD [])
  | property {a object property list : Node} {mapping : Place} {v : Folded} :
      argument.unwrap? = some a → a.shape = .member → a.child? .object = some object →
      object.shape = .identifier → a.child? .property = some property →
      property.kind = .propertyIdentifier →
      IsItem w.source ds place (object.text w.source) mapping list →
      (constant (w.context (w.scopes.scopeFor mapping)) 0 (some list)).outcome = .ok v →
      Expands w ds place argument (itemValues (property.text w.source) (v.records?.getD []))

theorem constant_of_isItem (hl : Lexical w ds) (hp : place ∈ (Place.root w.program.root).preorder)
    (ha : argument.unwrap? = some a) (hs : a.shape = .identifier) {list : Node}
    (h : IsItem w.source ds place (a.text w.source) mapping list) :
    (constant (w.context (w.scopes.scopeFor place)) 0 (some argument)).outcome = .ok .dynamic := by
  obtain ⟨function, -, parameter, -, -, -, ⟨simple, hm⟩, -⟩ := h
  rw [← hl.meaning _ hp] at hm
  have hu : unwrapOf (some argument) = some a := ha
  rw [Fold.constant_of_le (by decide) hu, Fold.foldShape, hs]
  simp only [Fold.foldName, Workplace.context, hm]
  rfl

/-- Whatever an argument expands to are its keys. -/
theorem localKeys_of_expands (hl : Lexical w ds)
    (hp : place ∈ (Place.root w.program.root).preorder) (h : Expands w ds place argument keys) :
    (localKeys w (w.scopes.scopeFor place) argument).outcome = .ok keys := by
  unfold localKeys
  cases h with
  | item ha hs hitem hlist =>
    rw [Traced.bind_of_ok (constant_of_isItem hl hp ha hs hitem)]
    simp only [ha, hs]
    rw [mappedList_of_isItem hl hp hitem, Traced.bind_of_ok hlist]
    rfl
  | @property a _ _ _ _ _ ha hs hobject hos hproperty hpk hitem hlist =>
    have hdynamic : (constant (w.context (w.scopes.scopeFor place)) 0 (some argument)).outcome =
        .ok .dynamic := by
      have hu : unwrapOf (some argument) = some a := ha
      rw [Fold.constant_of_le (by decide) hu, Fold.foldShape, hs]
      rfl
    rw [Traced.bind_of_ok hdynamic]
    simp only [ha, hs, hobject, hproperty, hos, hpk, and_self, if_true]
    rw [mappedList_of_isItem hl hp hitem, Traced.bind_of_ok hlist]
    rfl

/-- The keys of an argument that is no string are what it expands to. -/
theorem expands_of_localKeys (hl : Lexical w ds)
    (hp : place ∈ (Place.root w.program.root).preorder)
    (hstring : ∀ s, (constant (w.context (w.scopes.scopeFor place)) 0 (some argument)).outcome ≠
      .ok (.string s))
    (h : (localKeys w (w.scopes.scopeFor place) argument).outcome = .ok keys) (hk : keys ≠ []) :
    Expands w ds place argument keys := by
  obtain ⟨v, hv, h⟩ := Traced.bind_ok_iff.1 h
  split at h
  · exact absurd hv (hstring _)
  split at h
  · exact absurd (Except.ok.inj h).symm hk
  next a ha =>
  -- What is left is a name or a plain property of one, and the list behind it is known: without a
  -- list there are no keys.
  split at h
  · next hs =>
    obtain ⟨v, hv, h⟩ := Traced.bind_ok_iff.1 h
    cases h
    have hknown : v ≠ .dynamic := by
      rintro rfl
      exact hk rfl
    obtain ⟨mapping, list, hitem, hlist⟩ := isItem_of_mappedList hl hp hv hknown
    exact .item ha hs hitem hlist
  · next hs =>
    split at h
    · next object property hobject hproperty =>
      split at h
      · next hplain =>
        obtain ⟨v, hv, h⟩ := Traced.bind_ok_iff.1 h
        cases h
        have hknown : v ≠ .dynamic := by
          rintro rfl
          exact hk rfl
        obtain ⟨mapping, list, hitem, hlist⟩ := isItem_of_mappedList hl hp hv hknown
        exact .property ha hs hobject hplain.1 hproperty hplain.2 hitem hlist
      · exact absurd (Except.ok.inj h).symm hk
    · exact absurd (Except.ok.inj h).symm hk
  · exact absurd (Except.ok.inj h).symm hk

theorem Expands.not_quoted (h : Expands w ds place argument keys) :
    (argument.shape == .string || argument.shape == .template) = false := by
  have hplain {a : Node} (ha : argument.unwrap? = some a) (hs : a.shape ≠ .string)
      (ht : a.shape ≠ .template) :
      (argument.shape == .string || argument.shape == .template) = false := by
    by_cases hw : argument.shape = .wrapper
    · rw [hw]
      rfl
    · cases (Node.unwrap?_of_shape hw).symm.trans ha
      simp [hs, ht]
  cases h with
  | item ha hs => exact hplain ha (by simp [hs]) (by simp [hs])
  | property ha hs => exact hplain ha (by simp [hs]) (by simp [hs])

end Keys

/-- **A call looks a key up for every element of the list that its argument runs over.** In a
program that is read, a call through a variable with a namespace, whose first argument is no string,
looks keys up only if the argument is the item of a list of strings, or a plain property of the item
of a list of records; then it looks up those of the list, in its order. All of them are at the
argument, and none is a literal. -/
theorem ofCall_expands {doc : Document} {grammars : List Text} {p : Program}
    (hread : (Program.read doc grammars).outcome = .ok (some p)) {imports : List (Text × Import)}
    (himports : Import.ofProgram p = .ok imports) {importer : Option Importer} {label : Text}
    {w : Workplace} (hw : (Workplace.ofProgram p importer label).outcome = .ok w) {call : Place}
    (hcall : call ∈ w.placesOf .callExpression) {fallback : Fallback} {delimiter name : Text}
    (hname : lookupVariable? w.source call.node = some name) {ns : Option Text}
    (hns : (namespaceOf w fallback (w.scopes.scopeFor call) name).outcome = .ok ns)
    (husable : ns ≠ none ∨ Named.get? fallback name ≠ none) {first : Node} {rest : List Node}
    (hargs : call.node.callArguments?.getD [] = first :: rest)
    (hstring : ∀ s, (constant (w.context (w.scopes.scopeFor call)) 0 (some first)).outcome ≠
      .ok (.string s)) :
    (∀ keys, Expands w (Declaration.ofProgram p imports) call first keys →
      (ofCall w fallback delimiter call).outcome = .ok (atCall w delimiter first name ns keys)) ∧
    (∀ us, (ofCall w fallback delimiter call).outcome = .ok us → us ≠ [] →
      ∃ keys, Expands w (Declaration.ofProgram p imports) call first keys ∧
        us = atCall w delimiter first name ns keys) ∧
    (∀ us, (ofCall w fallback delimiter call).outcome = .ok us → ∀ u ∈ us,
      u.start = w.source.charOffset first.span.start ∧
        u.stop = w.source.charOffset first.span.stop ∧ u.quoted = false) ∧
    (Answers importer → ∃ us, (ofCall w fallback delimiter call).outcome = .ok us) := by
  have hl := lexical_of_read hread himports hw
  obtain ⟨hlegal, rfl, rfl⟩ :=
    Workplace.legal (Program.legal_of_read hread) (Program.kind_root_of_read hread) hw
  have hplace : call ∈ (Place.root w.program.root).preorder := List.mem_of_mem_filter hcall
  have hfound {us : List Usage} (h : (ofCall w fallback delimiter call).outcome = .ok us) :
      us ≠ [] → ∃ keys, Expands w (Declaration.ofProgram w.program imports) call first keys ∧
        us = atCall w delimiter first name ns keys := by
    intro hne
    obtain ⟨ns', hns', ⟨-, rfl⟩ | ⟨first', rest', keys, hargs', hkeys, rfl⟩⟩ :=
      ofCall_ok_cases h hname
    · exact absurd rfl hne
    · cases hns.symm.trans hns'
      cases hargs.symm.trans hargs'
      refine ⟨keys, expands_of_localKeys hl hplace hstring hkeys ?_, rfl⟩
      rintro rfl
      exact hne rfl
  refine ⟨fun keys hkeys => ?_, fun us => hfound, fun us h u hu => ?_, fun ha =>
    Fold.returns_of_blames (ofCall_blames hlegal fallback delimiter hcall) ha⟩
  · have hlisted : (ns.isNone && (Named.get? fallback name).isNone) = false := by
      rw [Bool.and_eq_false_iff]
      exact husable.imp (by simp [Option.isSome_iff_ne_none]) (by simp [Option.isSome_iff_ne_none])
    unfold ofCall
    simp only [hname]
    rw [Traced.bind_of_ok hns]
    simp only [hlisted, Bool.false_eq_true, if_false, hargs]
    rw [Traced.bind_of_ok (localKeys_of_expands hl hplace hkeys)]
    rfl
  · obtain ⟨keys, hkeys, rfl⟩ := hfound h (List.ne_nil_of_mem hu)
    obtain ⟨key, -, rfl⟩ := List.mem_map.1 hu
    exact ⟨rfl, rfl, hkeys.not_quoted⟩

section Example

/-- A program that looks up the elements of a list from a function in the one it is mapped by. -/
def nestedLookup : Text :=
  text "const xs=['a','b'];const t=useTranslations('n');xs.map((i='')=>()=>t(i))"

/-- The usages of `nestedLookup`. -/
def nestedUsages : List Usage :=
  [⟨text "n.a", 69, 70, false, text "t", some (text "n")⟩,
    ⟨text "n.b", 69, 70, false, text "t", some (text "n")⟩]

/-- The argument of the last call in `nestedLookup` runs over the list. -/
theorem ofCall_expands_nestedLookup : ∃ p imports w call first keys,
    (Program.ofText nestedLookup).outcome = .ok (some p) ∧ Import.ofProgram p = .ok imports ∧
    (Workplace.ofProgram p none []).outcome = .ok w ∧ call ∈ w.placesOf .callExpression ∧
    (ofCall w [] defaultDelimiter call).outcome = .ok nestedUsages ∧
    Expands w (Declaration.ofProgram p imports) call first keys ∧
    nestedUsages = atCall w defaultDelimiter first (text "t") (some (text "n")) keys := by
  have hrun : (do
      let p ← (Program.ofText nestedLookup).outcome.toOption.join
      let w ← (Workplace.ofProgram p none []).outcome.toOption
      let call ← (w.placesOf .callExpression)[2]?
      let first ← (call.node.callArguments?.getD []).head?
      return decide (lookupVariable? w.source call.node = some (text "t"))
        && decide ((namespaceOf w [] (w.scopes.scopeFor call) (text "t")).outcome.toOption =
          some (some (text "n")))
        && decide ((constant (w.context (w.scopes.scopeFor call)) 0 (some first)).outcome.toOption =
          some .dynamic)
        && decide ((ofCall w [] defaultDelimiter call).outcome.toOption = some nestedUsages)) =
      some true := by
    decide +kernel
  simp only [bind, Option.bind_eq_some_iff, Option.join_eq_some_iff] at hrun
  obtain ⟨p, hp, w, hw, call, hcall, first, hfirst, h⟩ := hrun
  simp only [pure, Option.some.injEq, Bool.and_eq_true, decide_eq_true_eq] at h
  obtain ⟨⟨⟨hname, hns⟩, hfold⟩, hus⟩ := h
  have hp := Traced.outcome_of_toOption hp
  have hw := Traced.outcome_of_toOption hw
  have hus := Traced.outcome_of_toOption hus
  have hfold := Traced.outcome_of_toOption hfold
  obtain ⟨imports, himports⟩ := Import.ofProgram_ok (Program.legal_of_read hp)
  obtain ⟨rest, hargs⟩ := List.head?_eq_some_iff.1 hfirst
  have hcall := List.mem_of_getElem? hcall
  have hstring : ∀ s, (constant (w.context (w.scopes.scopeFor call)) 0 (some first)).outcome ≠
      .ok (.string s) := by
    intro s hs
    cases hfold.symm.trans hs
  obtain ⟨-, hkeys, -⟩ := ofCall_expands hp himports hw hcall hname
    (Traced.outcome_of_toOption hns) (.inl nofun) hargs hstring
  obtain ⟨keys, hexpands, hsame⟩ := hkeys _ hus nofun
  exact ⟨p, imports, w, call, first, keys, hp, himports, hw, hcall, hus, hexpands, hsame⟩

end Example

end KeyTrace.Usage
