/-
Names resolve by the lexical rule.

The scopes of a program are those of its regions, every place lies in the scope
of its region, and a scope binds a name as the last declaration in its region
does. Looking a name up from a place outwards is then the lexical rule.
-/
import KeyTrace.Proofs.Scope.Construction

namespace KeyTrace.ScopeTree

/-- The scopes are those of the code of a program, and bind what is declared there. -/
structure Covers (t : ScopeTree) (root : Node) (ds : List Declaration) : Prop where
  places : t.places.toList = (Place.code root).filter Place.isRegion
  owned : ∀ o ∈ t.owners, ∃ q ∈ Place.code root, q.node.kind.formsScope = true ∧
    q.node.key = o.1 ∧ t.places[o.2]? = some q.region
  found : ∀ q ∈ Place.code root, q.node.kind.opensScope = true → ∃ i, (q.node.key, i) ∈ t.owners
  account : ∃ log, Account t log ∧ t.Matches log ds

theorem account_openScope_root (root : Node) :
    Account (openScope ⟨.empty, [], #[]⟩ (.root root) none false) [] where
  size := rfl
  bound := by simp
  scope := by
    intro i r hr
    cases i with
    | zero =>
      cases hr
      exact ⟨⟨none, true, []⟩, rfl, rfl, rfl, fun x => rfl⟩
    | succ i => simp [openScope] at hr

/-- The scopes of a program cover its code. -/
theorem ofProgram_covers {p : Program} {imports : List (Text × Import)}
    (hi : Import.ofProgram p = .ok imports) (hroot : p.root.kind = .program) :
    ∃ t, ofProgram p = .ok t ∧ t.Covers p.root (Declaration.ofProgram p imports) := by
  refine ⟨_, by simp only [ofProgram, hi]; rfl, ?_⟩
  have h₀ := account_openScope_root p.root
  have hr : (openScope ⟨.empty, [], #[]⟩ (.root p.root) none false).places[programScope]? =
      some (Place.region ⟨p.root, []⟩) := rfl
  have h₁ := Adds.foldl (fun _ (x : Text × Import) h => Adds.declare h x.1 (.imported x.2))
    imports hr
  have h₂ := visitAll_adds p.source p.root.allChildren (h₁.keep hr) (h₁.sound ⟨_, h₀⟩)
    (fun h => by rw [hroot] at h; cases h)
  have h := h₁.trans h₂
  refine ⟨h.places, ?_, ?_, ?_⟩
  · intro o ho
    rcases h.owned o ho with ho | ⟨q, hq, hs, hk⟩
    · rw [show o = (p.root.key, programScope) from List.mem_singleton.1 ho]
      exact ⟨.root p.root, List.mem_cons_self, by rw [Place.root, hroot]; rfl, rfl, h.keep hr⟩
    · exact ⟨q, List.mem_cons_of_mem _ hq, Kind.formsScope_of_opensScope hs, hk⟩
  · intro q hq hs
    rcases List.mem_cons.1 hq with rfl | hq
    · rw [hroot] at hs
      cases hs
    · obtain ⟨i, ho, -⟩ := h.found q hq hs
      exact ⟨i, ho⟩
  · obtain ⟨log, hlog, hm⟩ := h.account h₀
    refine ⟨_, hlog, ?_⟩
    have hatroot : Declaration.atPlace p.source ⟨p.root, []⟩ = [] := by
      simp [Declaration.atPlace, hroot]
    rw [Declaration.ofProgram, Place.code, List.flatMap_cons, hatroot, List.nil_append,
      List.map_eq_flatMap]
    exact hm

namespace Covers

variable {t : ScopeTree} {root : Node} {ds : List Declaration}

theorem eq_of_key_eq (h : t.Covers root ds) (hroot : root.kind = .program)
    (hd : root.ScopesApart) {i j : ScopeId} {q r : Place} (hq : t.places[i]? = some q)
    (hr : t.places[j]? = some r) (hk : q.node.key = r.node.key) : i = j := by
  have hnodup := Place.regionKeys_nodup hroot hd
  rw [← Array.getElem?_toList, h.places] at hq hr
  refine (List.getElem?_inj ?_ hnodup).1 ?_
  · rw [List.length_map]
    exact (List.getElem?_eq_some_iff.1 hq).1
  · rw [List.getElem?_map, List.getElem?_map, hq, hr, Option.map_some, Option.map_some, hk]

theorem places_program (h : t.Covers root ds) : t.places[programScope]? = some ⟨root, []⟩ := by
  rw [← Array.getElem?_toList, h.places]
  rfl

theorem places_of_lookup (h : t.Covers root ds) (hroot : root.kind = .program)
    (hd : root.ScopesApart) {p : Place} (hp : p ∈ (Place.root root).preorder) {i : ScopeId}
    (hl : t.owners.lookup p.node.key = some i) :
    t.places[i]? = some p.region ∧ p.isCode = true := by
  obtain ⟨l, l', hl, -⟩ := List.lookup_eq_some_iff.1 hl
  obtain ⟨q, hq, hs, hk, hr⟩ := h.owned (p.node.key, i) (by simp [hl])
  have hqp := Place.eq_of_key_eq hd ((Place.code_subperm root).subset hq) hp hs hk
  rw [hqp] at hq hr
  exact ⟨hr, (Place.mem_code_iff hd (by simp [Node.isComment, hroot]) hp).1 hq⟩

theorem lookup_ne_none (h : t.Covers root ds) (hroot : root.kind = .program)
    (hd : root.ScopesApart) {p : Place} (hp : p ∈ (Place.root root).preorder)
    (hc : p.isCode = true) (hs : p.node.kind.opensScope = true) :
    t.owners.lookup p.node.key ≠ none := by
  have hcode := (Place.mem_code_iff hd (by simp [Node.isComment, hroot]) hp).2 hc
  obtain ⟨i, ho⟩ := h.found p hcode hs
  intro hl
  exact absurd (List.lookup_eq_none_iff.1 hl _ ho) (by simp)

/-- **A place lies in the scope of the innermost region around it.** -/
theorem places_scopeFor (h : t.Covers root ds) (hroot : root.kind = .program)
    (hd : root.ScopesApart) {n : Node} {above : List Node}
    (hp : ⟨n, above⟩ ∈ (Place.root root).preorder) :
    ∃ r, t.places[t.scopeFor ⟨n, above⟩]? = some r ∧
      r.regions = (Place.regions ⟨n, above⟩).filter Place.isCode := by
  have howned : ∀ {p : Place} {i : ScopeId}, p ∈ (Place.root root).preorder →
      t.owners.lookup p.node.key = some i →
      ∃ r, t.places[i]? = some r ∧ r.regions = p.regions.filter Place.isCode := by
    intro p i hp hl
    obtain ⟨hr, hc⟩ := h.places_of_lookup hroot hd hp hl
    refine ⟨_, hr, ?_⟩
    rw [Place.regions_region, List.filter_eq_self.2 fun q => Place.isCode_of_mem_regions hc]
  induction above generalizing n with
  | nil =>
    simp only [scopeFor, Place.chain, scopeOfChain]
    cases hl : t.owners.lookup n.key with
    | some i => exact howned hp hl
    | none =>
      rw [Place.eq_root_of_mem_preorder hp]
      exact ⟨_, h.places_program, by simp [Place.regions, Place.regionsOf, Place.isCode, Place.chain,
        Node.isComment, hroot]⟩
  | cons a as ih =>
    simp only [scopeFor, Place.chain, scopeOfChain]
    cases hl : t.owners.lookup n.key with
    | some i => exact howned hp hl
    | none =>
      obtain ⟨r, hr, hregions⟩ := ih (Place.up_mem_preorder hp)
      refine ⟨r, hr, hregions.trans ?_⟩
      -- a node without a scope is no region, or one in a comment
      cases hregion : Place.isRegion ⟨n, a :: as⟩ with
      | false => rw [Place.regions_of_not_isRegion hregion]
      | true =>
        rw [Place.regions_of_isRegion hregion, List.filter_cons_of_neg]
        exact fun hc =>
          h.lookup_ne_none hroot hd hp hc (Place.opensScope_of_isRegion hregion) hl

theorem last?_eq (h : t.Covers root ds) (hroot : root.kind = .program) (hd : root.ScopesApart)
    {log : Log} (hm : t.Matches log ds) {i : ScopeId} {r : Place} (hr : t.places[i]? = some r)
    (x : Text) : log.last? i x = Declaration.last? ds r x := by
  refine Pointwise.findSome?_eq (fun l d hld => ?_) (List.rel_reverse hm)
  obtain ⟨hl, hb⟩ := hld
  have hi : l.1 = i ↔ d.region.node.key = r.node.key := by
    constructor
    · rintro rfl
      rw [Option.some.inj (hl.symm.trans hr)]
    · exact h.eq_of_key_eq hroot hd hl hr
  simp only [hi, hb]

end Covers

/-- **Names resolve lexically.** What a name means in the scope of a place is what the lexical rule
says of the tree: the last declaration of the name in the innermost region that has one. The order
of the declarations is the pre-order of the tree wherever the bodies of functions come last. -/
theorem resolve_scopeFor {p : Program} {imports : List (Text × Import)}
    (hi : Import.ofProgram p = .ok imports) (hroot : p.root.kind = .program)
    (hd : p.root.ScopesApart) :
    (∃ t, ofProgram p = .ok t ∧
      ∀ n ∈ (Place.root p.root).preorder, ∀ x,
        t.resolve (t.scopeFor n) x =
          Declaration.meaning? (Declaration.ofProgram p imports) n x) ∧
    (Node.BodiesLast p.root.preorder →
      Place.code p.root = (Place.root p.root).preorder.filter Place.isCode) := by
  refine ⟨?_, fun hl => Place.code_eq_filter hd hl (by simp [Node.isComment, hroot])⟩
  obtain ⟨t, ht, h⟩ := ofProgram_covers hi hroot
  obtain ⟨log, hlog, hm⟩ := h.account
  refine ⟨t, ht, fun n hn x => ?_⟩
  obtain ⟨r₀, hr₀, hregions⟩ := h.places_scopeFor hroot hd hn
  have hchain := hlog.chain hr₀
  rw [hregions] at hchain
  refine Pointwise.findSome?_eq (fun l r hlr => ?_) hchain
  obtain ⟨e, he, -, -, hb⟩ := hlog.scope hlr.1
  rw [hlr.2] at he
  rw [Option.some.inj he, hb, h.last?_eq hroot hd hm hlr.1]

/-- The tree of `const a=b;` from a position on, for names of one letter. -/
def shortDeclaration (i : Nat) : Node :=
  .mk .none .lexicalDeclaration ⟨i, i + 10⟩
    [.mk .none .variableDeclarator ⟨i + 6, i + 9⟩
      [.mk .name .identifier ⟨i + 6, i + 7⟩ [], .mk .value .identifier ⟨i + 8, i + 9⟩ []]]

/-- The program `const a=b;{const b=a;}`. -/
def nested : Program where
  source := ⟨(Utf8.encode (text "const a=b;\x7bconst b=a;\x7d")).toArray⟩
  root := .mk .none .program ⟨0, 22⟩
    [shortDeclaration 0, .mk .none .statementBlock ⟨10, 22⟩ [shortDeclaration 11]]

/-- In the block of `nested`, `a` is the variable outside and `b` the one inside. -/
theorem resolve_scopeFor_nested : ∃ t, ofProgram nested = .ok t ∧
    ∃ n ∈ (Place.root nested.root).preorder, n.node.span = ⟨19, 20⟩ ∧
      (t.resolve (t.scopeFor n) (text "a")).map (·.declaration.node.span) = some ⟨6, 9⟩ ∧
      (t.resolve (t.scopeFor n) (text "b")).map (·.declaration.node.span) = some ⟨17, 20⟩ := by
  have hi : Import.ofProgram nested = .ok [] := rfl
  obtain ⟨⟨t, ht, h⟩, -⟩ := resolve_scopeFor hi rfl (by decide)
  have hn := List.get_mem (Place.root nested.root).preorder ⟨9, by decide⟩
  have h := h _ hn
  exact ⟨t, ht, _, hn, rfl, by rw [h]; decide +kernel, by rw [h]; decide +kernel⟩

end KeyTrace.ScopeTree
