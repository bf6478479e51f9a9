/-
Where the bindings of a program come from: each is of a declaration in its code,
and a variable is a declarator of the tree with that variable for its name.
-/
import KeyTrace.Proofs.Scope.Resolution

namespace KeyTrace

namespace Declaration

variable {source : Source} {region d p : Place} {decl : Declaration}

/-- A variable is declared by its own declarator, under its name. -/
def IsVariable (source : Source) (d : Place) (name : Text) : Prop :=
  d.node.kind = .variableDeclarator ∧
    ∃ n, d.node.child? .name = some n ∧ n.kind = .identifier ∧ n.text source = name

theorem binding_of_mem_ofPattern {pattern : Option Place} {b : Binding}
    (h : decl ∈ ofPattern source region pattern b) : decl.binding = b := by
  cases pattern with
  | none => simp [ofPattern] at h
  | some q =>
    obtain ⟨n, -, rfl⟩ := List.mem_map.1 h
    rfl

theorem isVariable_of_mem_ofVariable {e : Place} (h : decl ∈ ofVariable source region e)
    (hd : decl.binding = .declared d) : d = e ∧ IsVariable source d decl.name := by
  unfold ofVariable at h
  split at h
  · simp at h
  · next hk =>
    cases hn : e.child? .name with
    | none => simp [hn] at h
    | some n =>
      rw [hn] at h
      dsimp only at h
      split at h
      · next hid =>
        obtain rfl := List.mem_singleton.1 h
        cases hd
        obtain ⟨m, hm, rfl⟩ := Option.map_eq_some_iff.1 hn
        exact ⟨rfl, not_not.1 hk, m, hm, hid, rfl⟩
      · rw [binding_of_mem_ofPattern h] at hd
        cases hd

theorem binding_of_mem_ofParameters {f : Place} (h : decl ∈ ofParameters source f) :
    decl.binding ≠ .declared d := by
  obtain ⟨q, -, h⟩ := List.mem_flatMap.1 h
  obtain ⟨n, -, rfl⟩ := List.mem_map.1 h
  simp

theorem isVariable_of_mem_atPlace (h : decl ∈ atPlace source p)
    (hd : decl.binding = .declared d) : d ∈ p.children ∧ IsVariable source d decl.name := by
  have hpattern : ∀ {r pattern e}, decl ∉ ofPattern source r pattern (.other e) := by
    intro r pattern e hp
    rw [binding_of_mem_ofPattern hp] at hd
    cases hd
  have hparameters : ∀ {f}, decl ∉ ofParameters source f :=
    fun hp => binding_of_mem_ofParameters hp hd
  have hvariables : ∀ {r}, decl ∈ p.children.flatMap (ofVariable source r) →
      d ∈ p.children ∧ IsVariable source d decl.name := by
    intro r hv
    obtain ⟨e, he, hv⟩ := List.mem_flatMap.1 hv
    obtain ⟨rfl, hvar⟩ := isVariable_of_mem_ofVariable hv hd
    exact ⟨he, hvar⟩
  unfold atPlace at h
  split at h
  · exact hvariables h
  · exact hvariables h
  all_goals simp [hpattern, hparameters] at h

end Declaration

namespace ScopeTree

/-- What a name means in a scope is what a declaration of the name binds it to. -/
theorem Covers.exists_declaration {t : ScopeTree} {root : Node} {ds : List Declaration}
    (h : t.Covers root ds) {i : ScopeId} {x : Text} {b : Binding} (hb : t.resolve i x = some b) :
    ∃ decl ∈ ds, decl.name = x ∧ decl.binding = b := by
  obtain ⟨log, hlog, hm⟩ := h.account
  obtain ⟨e, he, hb⟩ := List.exists_of_findSome?_eq_some hb
  have he := Scopes.get?_of_mem_chain he
  have hlt : e.1 < t.places.size := by
    rw [hlog.size]
    exact (Array.getElem?_eq_some_iff.1 he).1
  obtain ⟨e', he', -, -, hlast⟩ := hlog.scope (Array.getElem?_eq_getElem hlt)
  rw [he] at he'
  rw [Option.some.inj he', hlast] at hb
  obtain ⟨l, hl, hb⟩ := List.exists_of_findSome?_eq_some hb
  split at hb
  · next hx =>
    obtain ⟨decl, hdecl, -, hld⟩ := Pointwise.exists_of_mem_left hm (List.mem_reverse.1 hl)
    rw [hld] at hx hb
    exact ⟨decl, hdecl, hx.2, Option.some.inj hb⟩
  · cases hb

/-- A variable in scope is a declarator of the program with that variable for its name. -/
theorem declared_of_resolve {p : Program} {t : ScopeTree} (ht : ofProgram p = .ok t)
    (hroot : p.root.kind = .program) {i : ScopeId} {x : Text} {d : Place}
    (hd : t.resolve i x = some (.declared d)) :
    d ∈ (Place.root p.root).preorder ∧ Declaration.IsVariable p.source d x := by
  cases hi : Import.ofProgram p with
  | error e =>
    rw [ofProgram, hi] at ht
    cases ht
  | ok imports =>
    obtain ⟨t', ht', h⟩ := ofProgram_covers hi hroot
    rw [ht] at ht'
    cases ht'
    obtain ⟨decl, hdecl, rfl, hb⟩ := h.exists_declaration hd
    rcases List.mem_append.1 hdecl with hdecl | hdecl
    · obtain ⟨m, -, rfl⟩ := List.mem_map.1 hdecl
      cases hb
    · obtain ⟨q, hq, hdecl⟩ := List.mem_flatMap.1 hdecl
      obtain ⟨hchild, hvar⟩ := Declaration.isVariable_of_mem_atPlace hdecl hb
      have hq := (Place.code_subperm p.root).subset hq
      exact ⟨Place.children_subset_preorder hq hchild, hvar⟩

end ScopeTree
end KeyTrace
