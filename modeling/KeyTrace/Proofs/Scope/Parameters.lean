/-
Where the parameters of a program come from: a name that means a parameter at a place
is a name in the pattern of that parameter, and the place is in its function.
-/
import KeyTrace.Proofs.Scope.Resolution

namespace KeyTrace

namespace Place

theorem patternForm_of_peelStep? {n : Node} {role : Role} (h : peelStep? n = some role) :
    patternForm n.kind = .child role ∧ n.kind ≠ .identifier := by
  unfold peelStep? at h
  split at h
  all_goals cases h
  all_goals next hk => exact ⟨by rw [hk]; rfl, by rw [hk]; nofun⟩

mutual

/-- A parameter that is a name, with a type or a default value or without, binds that name alone. -/
theorem namesOf_of_peelOf (above : List Node) : ∀ n : Node,
    (peelOf above n).node.kind = .identifier → namesOf above n = [peelOf above n]
  | .mk r k s cs => by
    intro h
    cases hp : peelStep? (.mk r k s cs) with
    | none =>
      simp only [peelOf, hp] at h ⊢
      obtain rfl : k = .identifier := h
      rfl
    | some role =>
      simp only [peelOf, hp] at h ⊢
      obtain ⟨hform, hk⟩ := patternForm_of_peelStep? hp
      simp only [namesOf, show patternForm k = .child role from hform]
      cases hc : peelChild role (.mk r k s cs :: above) cs with
      | none =>
        rw [hc] at h
        exact absurd h hk
      | some q =>
        rw [hc] at h
        exact namesOfChild_of_peelChild role _ cs hc h

theorem namesOfChild_of_peelChild (role : Role) (above : List Node) :
    ∀ (cs : List Node) {q : Place}, peelChild role above cs = some q →
      q.node.kind = .identifier → namesOfChild role above cs = [q]
  | [], q, hq, _ => by cases hq
  | c :: cs, q, hq, hk => by
    simp only [peelChild] at hq
    simp only [namesOfChild]
    split at hq
    · next hc =>
      cases hq
      rw [if_pos hc]
      exact namesOf_of_peelOf above c hk
    · next hc =>
      rw [if_neg hc]
      exact namesOfChild_of_peelChild role above cs hq hk

end

theorem patternNames_of_peel {q : Place} (h : q.peel.node.kind = .identifier) :
    q.patternNames = [q.peel] :=
  namesOf_of_peelOf q.above q.node h

theorem regions_subset_preorder {root : Node} : ∀ {p q : Place}, p ∈ (Place.root root).preorder →
    q ∈ p.regions → q ∈ (Place.root root).preorder
  | ⟨n, []⟩, q, hp, hq => by
    rw [List.mem_singleton.1 hq]
    exact hp
  | ⟨n, a :: as⟩, q, hp, hq => by
    have hup : q ∈ regions ⟨a, as⟩ → q ∈ (Place.root root).preorder :=
      regions_subset_preorder (up_mem_preorder hp)
    cases h : isRegion ⟨n, a :: as⟩ with
    | true =>
      rw [regions_of_isRegion h, List.mem_cons] at hq
      rcases hq with rfl | hq
      · exact hp
      · exact hup hq
    | false =>
      rw [regions_of_not_isRegion h] at hq
      exact hup hq

end Place

namespace Declaration

variable {source : Source} {region d f p : Place} {decl : Declaration} {pos : Nat} {simple : Bool}

/-- A declaration of a name by a parameter of a function. -/
structure IsParameter (source : Source) (decl : Declaration) (d f : Place) (pos : Nat)
    (simple : Bool) : Prop where
  region : decl.region = f
  name : d.node.text source = decl.name
  parameter : ∃ q, (ScopeTree.parametersOf f)[pos]? = some q ∧ d ∈ q.patternNames ∧
    simple = (q.patternNames.length == 1 && q.peel.node.kind == .identifier)

theorem isParameter_of_mem_ofParameters {g : Place} (h : decl ∈ ofParameters source g)
    (hb : decl.binding = .parameter d f pos simple) :
    f = g ∧ IsParameter source decl d f pos simple := by
  obtain ⟨⟨q, i⟩, hq, h⟩ := List.mem_flatMap.1 h
  obtain ⟨n, hn, rfl⟩ := List.mem_map.1 h
  cases hb
  exact ⟨rfl, rfl, rfl, q, List.mem_zipIdx_iff_getElem?.1 hq, hn, rfl⟩

theorem not_parameter_of_mem_ofPattern {pattern : Option Place} {e : Place}
    (h : decl ∈ ofPattern source region pattern (.other e)) :
    decl.binding ≠ .parameter d f pos simple := by
  cases pattern with
  | none => cases h
  | some q =>
    obtain ⟨n, -, rfl⟩ := List.mem_map.1 h
    nofun

theorem not_parameter_of_mem_ofVariable {e : Place} (h : decl ∈ ofVariable source region e) :
    decl.binding ≠ .parameter d f pos simple := by
  unfold ofVariable at h
  repeat' split at h
  · cases h
  · cases h
  · obtain rfl := List.mem_singleton.1 h
    nofun
  · exact not_parameter_of_mem_ofPattern h

theorem isParameter_of_mem_atPlace (h : decl ∈ atPlace source p)
    (hb : decl.binding = .parameter d f pos simple) :
    f = p ∧ p.node.kind.isFunction = true ∧ IsParameter source decl d f pos simple := by
  have hpattern : ∀ {r pattern e}, decl ∉ ofPattern source r pattern (.other e) :=
    fun hp => not_parameter_of_mem_ofPattern hp hb
  have hvariables : ∀ {r}, decl ∉ p.children.flatMap (ofVariable source r) := by
    intro r hv
    obtain ⟨e, -, hv⟩ := List.mem_flatMap.1 hv
    exact not_parameter_of_mem_ofVariable hv hb
  have hown (hk : p.node.kind.isFunction = true) (h : decl ∈ ofParameters source p) :
      f = p ∧ p.node.kind.isFunction = true ∧ IsParameter source decl d f pos simple := by
    obtain ⟨rfl, hp⟩ := isParameter_of_mem_ofParameters h hb
    exact ⟨rfl, hk, hp⟩
  unfold atPlace at h
  split at h
  case h_4 hk | h_5 hk | h_6 hk | h_7 hk =>
    exact hown (by rw [hk]; rfl) ((List.mem_append.1 h).resolve_left hpattern)
  case h_8 hk | h_9 hk => exact hown (by rw [hk]; rfl) h
  case h_1 | h_2 => exact absurd h hvariables
  case h_3 | h_10 | h_11 | h_12 => exact absurd h hpattern
  case h_13 => cases h

theorem exists_of_meaning? {ds : List Declaration} {x : Text} {b : Binding}
    (h : meaning? ds p x = some b) : ∃ decl ∈ ds, decl.name = x ∧ decl.binding = b ∧
      ∃ r ∈ p.regions, decl.region.node.key = r.node.key := by
  obtain ⟨r, hr, h⟩ := List.exists_of_findSome?_eq_some h
  obtain ⟨decl, hdecl, h⟩ := List.exists_of_findSome?_eq_some h
  split at h
  · next hx =>
    cases h
    exact ⟨decl, List.mem_reverse.1 hdecl, hx.2, rfl, r, List.mem_of_mem_filter hr, hx.1⟩
  · cases h

end Declaration

namespace ScopeTree

/-- In the scope of a place a name means what it means there by the lexical rule. -/
theorem Covers.meaning?_eq {t : ScopeTree} {root : Node} {ds : List Declaration}
    (h : t.Covers root ds) (hroot : root.kind = .program) (hd : root.ScopesApart) {p : Place}
    (hp : p ∈ (Place.root root).preorder) (x : Text) :
    t.resolve (t.scopeFor p) x = Declaration.meaning? ds p x := by
  obtain ⟨log, hlog, hm⟩ := h.account
  obtain ⟨r, hr, hregions⟩ := h.places_scopeFor hroot hd hp
  have hchain := hlog.chain hr
  rw [hregions] at hchain
  refine Pointwise.findSome?_eq (fun l r hlr => ?_) hchain
  obtain ⟨e, he, -, -, hb⟩ := hlog.scope hlr.1
  rw [hlr.2] at he
  rw [Option.some.inj he, hb, h.last?_eq hroot hd hm hlr.1]

end ScopeTree

namespace Declaration

/-- A name that means a parameter where it stands is one of the names of that parameter, and stands
in the function. -/
theorem parameter_of_meaning? {p : Program} {imports : List (Text × Import)}
    (hd : p.root.ScopesApart) {q : Place} (hq : q ∈ (Place.root p.root).preorder) {x : Text}
    {d f : Place} {pos : Nat} {simple : Bool}
    (h : meaning? (ofProgram p imports) q x = some (.parameter d f pos simple)) :
    f ∈ (Place.root p.root).preorder ∧ f ∈ q.regions ∧ f.node.kind.isFunction = true ∧
      d.node.text p.source = x ∧ ∃ parameter,
        (ScopeTree.parametersOf f)[pos]? = some parameter ∧ d ∈ parameter.patternNames ∧
          simple = (parameter.patternNames.length == 1 &&
            parameter.peel.node.kind == .identifier) := by
  obtain ⟨decl, hdecl, rfl, hb, r, hr, hkey⟩ := exists_of_meaning? h
  rcases List.mem_append.1 hdecl with hdecl | hdecl
  · obtain ⟨m, -, rfl⟩ := List.mem_map.1 hdecl
    cases hb
  · obtain ⟨e, he, hdecl⟩ := List.mem_flatMap.1 hdecl
    obtain ⟨rfl, hk, hparameter⟩ := isParameter_of_mem_atPlace hdecl hb
    have hf := (Place.code_subperm p.root).subset he
    rw [hparameter.region] at hkey
    obtain rfl : f = r := Place.eq_of_key_eq hd hf (Place.regions_subset_preorder hq hr)
      (Kind.formsScope_of_opensScope (by rw [Kind.opensScope, hk]; rfl)) hkey
    exact ⟨hf, hr, hk, hparameter.name, hparameter.parameter⟩

end Declaration
end KeyTrace
