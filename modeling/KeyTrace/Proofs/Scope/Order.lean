/-
The code of a program and the pre-order of its tree. The code holds every place
that is not in a comment, and each once; where the body of every function comes
last, the order is the pre-order too.
-/
import KeyTrace.Proofs.Scope.Lexical
import KeyTrace.Proofs.Syntax.Places
import Mathlib.Data.List.Nodup
import Mathlib.Data.List.Perm.Subperm

namespace KeyTrace

theorem Kind.formsScope_of_opensScope {k : Kind} (h : k.opensScope = true) :
    k.formsScope = true := by
  simp [formsScope, h]

namespace Node

theorem scopeKeys_sublist {l l' : List Node} (h : l.Sublist l') :
    (scopeKeys l).Sublist (scopeKeys l') :=
  (h.filter _).map key

/-- Where no two of the nodes that a scope can belong to are alike, one is known by its key. -/
theorem eq_of_key_eq {l : List Node} (h : (scopeKeys l).Nodup) {m n : Node} (hm : m ∈ l)
    (hn : n ∈ l) (hk : m.kind.formsScope = true) (he : m.key = n.key) : m = n := by
  have hkind : n.kind = m.kind := congrArg Key.kind he.symm
  refine List.inj_on_of_nodup_map h (List.mem_filter.2 ⟨hm, hk⟩) (List.mem_filter.2 ⟨hn, ?_⟩) he
  rw [hkind]
  exact hk

theorem key_ne {l l' : List Node} (h : (scopeKeys (l ++ l')).Nodup) {m n : Node} (hm : m ∈ l)
    (hn : n ∈ l') (hk : n.kind.formsScope = true) : m.key ≠ n.key := by
  intro he
  have hkind : m.kind = n.kind := congrArg Key.kind he
  rw [scopeKeys, List.filter_append, List.map_append, List.nodup_append] at h
  exact h.2.2 _ (List.mem_map_of_mem (List.mem_filter.2 ⟨hm, by rw [hkind]; exact hk⟩)) _
    (List.mem_map_of_mem (List.mem_filter.2 ⟨hn, hk⟩)) he

end Node

theorem ScopeTree.bodyBlock?_eq_some {f b : Node} (h : bodyBlock? f = some b) :
    f.child? .body = some b ∧ b.kind = .statementBlock := by
  rw [bodyBlock?, Option.filter_eq_some_iff] at h
  exact ⟨h.1, by simpa using h.2⟩

namespace Place

open List

theorem codeOf_eq {n : Node} {above : List Node} (hf : n.kind.isFunction = false) :
    codeOf above n = ⟨n, above⟩ :: codeOfAll (n :: above) n.allChildren := by
  obtain ⟨r, k, s, cs⟩ := n
  rw [codeOf]
  exact congrArg _ (if_neg (by rw [show k.isFunction = false from hf]; simp))

theorem mem_codeOfAll {above : List Node} {p : Place} {l : List Node} :
    p ∈ codeOfAll above l ↔ ∃ c ∈ l, c.isComment = false ∧ p ∈ codeOf above c := by
  induction l with
  | nil => simp [codeOfAll]
  | cons c l ih =>
    rw [codeOfAll]
    split
    · next hc => simp [hc, ih]
    · next hc => simp [hc, ih]

theorem mem_codeOfOthers {above : List Node} {body : Node.Key} {p : Place} {l : List Node} :
    p ∈ codeOfOthers above body l ↔
      ∃ c ∈ l, c.isComment = false ∧ c.key ≠ body ∧ p ∈ codeOf above c := by
  induction l with
  | nil => simp [codeOfOthers]
  | cons c l ih =>
    rw [codeOfOthers]
    split
    · next hc =>
      have hc : c.isComment = false → c.key = body := by
        simpa [Classical.or_iff_not_imp_left] using hc
      simp only [ih, List.exists_mem_cons_iff]
      exact ⟨.inr, fun h => h.resolve_left fun hp => hp.2.1 (hc hp.1)⟩
    · next hc =>
      have hc : c.isComment = false ∧ c.key ≠ body := by simpa using hc
      simp [hc, ih]

/-- The part of a function that is its body. -/
theorem codeOfBody_eq {b : Node} {above : List Node} : ∀ {l : List Node},
    (l.find? fun c => c.role == .body) = some b → b.kind = .statementBlock →
    codeOfBody above b.key l = codeOf above b
  | .mk r k s cs :: l, h, hk => by
    rw [List.find?_cons] at h
    rw [codeOfBody]
    split at h
    · next hr =>
      cases h
      rw [codeOf_eq (by rw [hk]; rfl)]
      exact if_pos (by simpa [Node.role] using hr)
    · next hr =>
      rw [if_neg (by simp_all [Node.role])]
      exact codeOfBody_eq h hk

mutual

theorem codeOf_subperm (above : List Node) : ∀ n, codeOf above n <+~ preorderOf above n
  | .mk r k s cs => by
    simp only [codeOf, preorderOf]
    refine (subperm_cons _).2 ?_
    split
    · split
      · exact codeOfAll_subperm _ cs
      · exact codeOfParts_subperm _ _ cs
    · exact codeOfAll_subperm _ cs

theorem codeOfAll_subperm (above : List Node) : ∀ l, codeOfAll above l <+~ preorderOfAll above l
  | [] => nil_subperm
  | c :: l => by
    rw [codeOfAll, preorderOfAll]
    split
    · exact (codeOfAll_subperm above l).trans (sublist_append_right _ _).subperm
    · exact (codeOf_subperm above c).append (codeOfAll_subperm above l)

/-- The body of a function is not among its other parts. -/
theorem codeOfParts_subperm (above : List Node) (body : Node.Key) : ∀ l,
    codeOfOthers above body l ++ codeOfBody above body l <+~ preorderOfAll above l
  | [] => nil_subperm
  | .mk r k s cs :: l => by
    have ih := codeOfParts_subperm above body l
    simp only [codeOfOthers, codeOfBody, preorderOfAll]
    cases hr : r == .body && (Node.mk r k s cs).key == body with
    | true =>
      rw [if_pos rfl, if_pos (by simp only [Bool.and_eq_true] at hr; simp [hr.2])]
      have hb : ⟨.mk r k s cs, above⟩ :: codeOfAll (.mk r k s cs :: above) cs
          <+~ preorderOf above (.mk r k s cs) :=
        (subperm_cons _).2 (codeOfAll_subperm _ cs)
      exact perm_append_comm.subperm.trans
        (hb.append ((sublist_append_left _ _).subperm.trans ih))
    | false =>
      rw [if_neg Bool.false_ne_true]
      split
      · exact ih.trans (sublist_append_right _ _).subperm
      · rw [List.append_assoc]
        exact (codeOf_subperm above (.mk r k s cs)).append ih

end

/-- The code holds places of the tree only, and none twice. -/
theorem code_subperm (root : Node) : code root <+~ (Place.root root).preorder := by
  rw [preorder, preorderOf_eq]
  exact (subperm_cons _).2 (codeOfAll_subperm _ _)

theorem formsScope_of_isRegion {root : Node} (hroot : root.kind = .program) {q : Place}
    (hq : q ∈ (Place.root root).preorder) (hr : q.isRegion = true) :
    q.node.kind.formsScope = true := by
  obtain ⟨n, above⟩ := q
  cases above with
  | nil =>
    rw [eq_root_of_mem_preorder hq, hroot]
    rfl
  | cons a as => exact Kind.formsScope_of_opensScope (opensScope_of_isRegion hr)

theorem scopeKeys_places (root : Node) :
    (((Place.root root).preorder.filter fun q => q.node.kind.formsScope).map fun q => q.node.key)
      = Node.scopeKeys root.preorder := by
  rw [Node.scopeKeys, ← map_node_preorderOf [] root, List.filter_map, List.map_map]
  rfl

/-- Places that a scope can belong to are known by their keys. -/
theorem eq_of_key_eq {root : Node} (hd : root.ScopesApart) {p q : Place}
    (hp : p ∈ (Place.root root).preorder) (hq : q ∈ (Place.root root).preorder)
    (hk : p.node.kind.formsScope = true) (he : p.node.key = q.node.key) : p = q := by
  have hkind : q.node.kind = p.node.kind := congrArg Node.Key.kind he.symm
  rw [Node.ScopesApart, ← scopeKeys_places] at hd
  refine List.inj_on_of_nodup_map hd (List.mem_filter.2 ⟨hp, hk⟩) (List.mem_filter.2 ⟨hq, ?_⟩) he
  rw [hkind]
  exact hk

/-- No two regions of a program look alike. -/
theorem regionKeys_nodup {root : Node} (hroot : root.kind = .program) (hd : root.ScopesApart) :
    (((code root).filter isRegion).map fun q => q.node.key).Nodup := by
  have hsub : (code root).filter isRegion <+~
      (Place.root root).preorder.filter fun q => q.node.kind.formsScope := by
    have hfilter : ((code root).filter isRegion).filter (fun q => q.node.kind.formsScope) =
        (code root).filter isRegion := by
      refine List.filter_eq_self.2 fun q hq => ?_
      obtain ⟨hq, hr⟩ := List.mem_filter.1 hq
      exact formsScope_of_isRegion hroot ((code_subperm root).subset hq) hr
    rw [← hfilter]
    exact (filter_sublist.subperm.trans (code_subperm root)).filter _
  obtain ⟨l, hperm, hl⟩ := hsub
  rw [Node.ScopesApart, ← scopeKeys_places] at hd
  exact (hperm.map _).nodup_iff.1 (hd.sublist (hl.map _))

/-- The node that a place lies at or below is at or above it. -/
theorem mem_chain_of_mem {above : List Node} {n : Node} {p : Place} (h : p ∈ preorderOf above n) :
    n ∈ p.chain := by
  rw [preorderOf_eq, List.mem_cons] at h
  rcases h with rfl | h
  · exact List.mem_cons_self
  · exact List.mem_cons_of_mem _ ((suffix_above_of_memAll h).subset List.mem_cons_self)

mutual

theorem mem_codeOf {p : Place} (hp : ∀ a ∈ p.chain, a.isComment = false) :
    ∀ {n : Node} {above : List Node}, (Node.scopeKeys n.preorder).Nodup →
      p ∈ preorderOf above n → p ∈ codeOf above n
  | .mk r k s cs, above, hn, h => by
    rw [preorderOf, List.mem_cons] at h
    simp only [codeOf]
    refine List.mem_cons.2 (h.imp_right fun h => ?_)
    have hcs : (Node.scopeKeys (Node.preorderAll cs)).Nodup :=
      hn.sublist (Node.scopeKeys_sublist (sublist_cons_self _ _))
    obtain ⟨c, hc, hcc, hpc⟩ := exists_mem_codeOf hp hcs h
    split
    · cases hb : ScopeTree.bodyBlock? (.mk r k s cs) with
      | none => exact mem_codeOfAll.2 ⟨c, hc, hcc, hpc⟩
      | some b =>
        obtain ⟨hfind, hk⟩ := ScopeTree.bodyBlock?_eq_some hb
        refine List.mem_append.2 ?_
        by_cases hkey : c.key = b.key
        · have hck : c.kind = .statementBlock := by
            rw [← hk]
            exact congrArg Node.Key.kind hkey
          have hcb : c = b := Node.eq_of_key_eq hcs (Node.mem_preorderAll_of_mem hc)
            (Node.mem_preorderAll_of_mem (List.mem_of_find?_eq_some hfind))
            (by rw [hck]; rfl) hkey
          rw [codeOfBody_eq (l := cs) hfind hk, ← hcb]
          exact .inr hpc
        · exact .inl (mem_codeOfOthers.2 ⟨c, hc, hcc, hkey, hpc⟩)
    · exact mem_codeOfAll.2 ⟨c, hc, hcc, hpc⟩

theorem exists_mem_codeOf {p : Place} (hp : ∀ a ∈ p.chain, a.isComment = false) :
    ∀ {l : List Node} {above : List Node}, (Node.scopeKeys (Node.preorderAll l)).Nodup →
      p ∈ preorderOfAll above l → ∃ c ∈ l, c.isComment = false ∧ p ∈ codeOf above c
  | c :: l, above, hl, h => by
    rw [preorderOfAll, List.mem_append] at h
    rw [Node.preorderAll] at hl
    rcases h with h | h
    · have hc := hl.sublist (Node.scopeKeys_sublist (sublist_append_left _ _))
      exact ⟨c, List.mem_cons_self, hp c (mem_chain_of_mem h), mem_codeOf hp hc h⟩
    · have hl := hl.sublist (Node.scopeKeys_sublist (sublist_append_right _ _))
      obtain ⟨d, hd, hpd⟩ := exists_mem_codeOf hp hl h
      exact ⟨d, List.mem_cons_of_mem _ hd, hpd⟩

end

mutual

theorem isCode_of_mem_codeOf {p : Place} : ∀ {n : Node} {above : List Node},
    (∀ a ∈ n :: above, a.isComment = false) → p ∈ codeOf above n → p.isCode = true
  | .mk r k s cs, above, hc, h => by
    simp only [codeOf, List.mem_cons] at h
    rcases h with rfl | h
    · simpa [isCode, chain] using hc
    · split at h
      · cases hb : ScopeTree.bodyBlock? (.mk r k s cs) with
        | none =>
          rw [hb] at h
          exact isCode_of_mem_codeOfAll hc h
        | some b =>
          obtain ⟨hfind, hk⟩ := ScopeTree.bodyBlock?_eq_some hb
          rw [hb] at h
          dsimp only at h
          rw [codeOfBody_eq (l := cs) hfind hk, List.mem_append] at h
          have hall : p ∈ codeOfAll (.mk r k s cs :: above) cs := by
            refine mem_codeOfAll.2 ?_
            rcases h with h | h
            · obtain ⟨c, hcs, hcc, -, hp⟩ := mem_codeOfOthers.1 h
              exact ⟨c, hcs, hcc, hp⟩
            · exact ⟨b, List.mem_of_find?_eq_some hfind, by simp [Node.isComment, hk], h⟩
          exact isCode_of_mem_codeOfAll hc hall
      · exact isCode_of_mem_codeOfAll hc h

theorem isCode_of_mem_codeOfAll {p : Place} : ∀ {l above : List Node},
    (∀ a ∈ above, a.isComment = false) → p ∈ codeOfAll above l → p.isCode = true
  | c :: l, above, hc, h => by
    rw [codeOfAll] at h
    split at h
    · exact isCode_of_mem_codeOfAll hc h
    · next hcc =>
      rcases List.mem_append.1 h with h | h
      · exact isCode_of_mem_codeOf (by simp_all) h
      · exact isCode_of_mem_codeOfAll hc h

end

/-- The code holds the places that are not in comments, and no others. -/
theorem mem_code_iff {root : Node} (hd : root.ScopesApart) (hroot : root.isComment = false)
    {p : Place} (hp : p ∈ (Place.root root).preorder) : p ∈ code root ↔ p.isCode = true := by
  constructor
  · intro h
    rcases List.mem_cons.1 h with rfl | h
    · simp [isCode, chain, hroot]
    · exact isCode_of_mem_codeOfAll (by simp [hroot]) h
  · intro h
    have hc : ∀ a ∈ p.chain, a.isComment = false := by simpa [isCode] using h
    rw [preorder, preorderOf_eq, List.mem_cons] at hp
    rw [Node.ScopesApart, Node.preorder_eq] at hd
    refine List.mem_cons.2 (hp.imp_right fun hp => mem_codeOfAll.2 ?_)
    exact exists_mem_codeOf hc (hd.sublist (Node.scopeKeys_sublist (sublist_cons_self _ _))) hp

section Preorder

variable {above : List Node} {c : Node}

theorem filter_isCode_comment (hc : c.isComment = true) :
    (preorderOf above c).filter isCode = [] := by
  rw [List.filter_eq_nil_iff]
  intro p hp hcode
  have := List.all_eq_true.1 hcode c (mem_chain_of_mem hp)
  rw [hc] at this
  cases this

theorem filter_isCode_comments {l : List Node} (hl : ∀ c ∈ l, c.isComment = true) :
    (preorderOfAll above l).filter isCode = [] := by
  rw [List.filter_eq_nil_iff]
  intro p hp
  obtain ⟨c, hc, hp⟩ := mem_preorderOfAll.1 hp
  exact List.filter_eq_nil_iff.1 (filter_isCode_comment (hl c hc)) p hp

end Preorder

/-- In a list with one body, last but for comments, nothing but comments comes after it. -/
theorem comments_of_getLast? {b : Node} {l : List Node}
    (hd : (Node.scopeKeys (Node.preorderAll (b :: l))).Nodup) (hk : b.kind = .statementBlock)
    (hlast : ((b :: l).filter fun c => !c.isComment).getLast? = some b) :
    ∀ c ∈ l, c.isComment = true := by
  intro c hc
  by_contra hcc
  have hbc : b.isComment = false := by simp [Node.isComment, hk]
  have hmem : c ∈ l.filter fun c => !c.isComment := List.mem_filter.2 ⟨hc, by simpa using hcc⟩
  rw [List.filter_cons_of_pos (by simp [hbc]),
    List.getLast?_cons_of_ne_nil (List.ne_nil_of_mem hmem)] at hlast
  have hb : b ∈ l := (List.mem_filter.1 (List.mem_of_getLast? hlast)).1
  rw [Node.preorderAll] at hd
  exact Node.key_ne hd (Node.mem_preorder_self b) (Node.mem_preorderAll_of_mem hb)
    (by rw [hk]; rfl) rfl

mutual

theorem codeOf_eq_filter : ∀ {n : Node} {above : List Node}, (Node.scopeKeys n.preorder).Nodup →
    Node.BodiesLast n.preorder → (∀ a ∈ n :: above, a.isComment = false) →
    codeOf above n = (preorderOf above n).filter isCode
  | .mk r k s cs, above, hd, hl, hc => by
    have hcs : (Node.scopeKeys (Node.preorderAll cs)).Nodup :=
      hd.sublist (Node.scopeKeys_sublist (sublist_cons_self _ _))
    have hls : Node.BodiesLast (Node.preorderAll cs) :=
      fun f hf => hl f (List.mem_cons_of_mem _ hf)
    rw [preorderOf, List.filter_cons_of_pos (by simpa [isCode, chain] using hc)]
    simp only [codeOf]
    congr 1
    split
    · next hf =>
      cases hb : ScopeTree.bodyBlock? (.mk r k s cs) with
      | none => exact codeOfAll_eq_filter hcs hls hc
      | some b =>
        obtain ⟨hfind, hk⟩ := ScopeTree.bodyBlock?_eq_some hb
        have hlast := hl _ List.mem_cons_self hf b hb
        dsimp only
        rw [codeOfBody_eq (l := cs) hfind hk]
        exact codeOfParts_eq_filter hcs hls hc hfind hk hlast
    · exact codeOfAll_eq_filter hcs hls hc

theorem codeOfAll_eq_filter : ∀ {l above : List Node}, (Node.scopeKeys (Node.preorderAll l)).Nodup →
    Node.BodiesLast (Node.preorderAll l) → (∀ a ∈ above, a.isComment = false) →
    codeOfAll above l = (preorderOfAll above l).filter isCode
  | [], above, _, _, _ => rfl
  | c :: l, above, hd, hl, hc => by
    rw [Node.preorderAll] at hd hl
    have ih := codeOfAll_eq_filter (hd.sublist (Node.scopeKeys_sublist (sublist_append_right _ _)))
      (fun f hf => hl f (List.mem_append_right _ hf)) hc
    rw [codeOfAll, preorderOfAll, List.filter_append, ← ih]
    split
    · next hcc => rw [filter_isCode_comment hcc, List.nil_append]
    · next hcc =>
      rw [codeOf_eq_filter (hd.sublist (Node.scopeKeys_sublist (sublist_append_left _ _)))
        (fun f hf => hl f (List.mem_append_left _ hf)) (by simp_all)]

theorem codeOfParts_eq_filter {b : Node} : ∀ {l above : List Node},
    (Node.scopeKeys (Node.preorderAll l)).Nodup →
    Node.BodiesLast (Node.preorderAll l) → (∀ a ∈ above, a.isComment = false) →
    (l.find? fun c => c.role == .body) = some b → b.kind = .statementBlock →
    (l.filter fun c => !c.isComment).getLast? = some b →
    codeOfOthers above b.key l ++ codeOf above b = (preorderOfAll above l).filter isCode
  | c :: l, above, hd, hl, hc, hfind, hk, hlast => by
    have hd' := hd
    rw [Node.preorderAll] at hd' hl
    have hdc := hd'.sublist (Node.scopeKeys_sublist (sublist_append_left _ _))
    have hdl := hd'.sublist (Node.scopeKeys_sublist (sublist_append_right _ _))
    have hbc : b.isComment = false := by simp [Node.isComment, hk]
    rw [List.find?_cons] at hfind
    rw [codeOfOthers, preorderOfAll, List.filter_append]
    -- The body is the last child but for comments. It is `c`, or else behind `c`, which then comes
    -- before it in both lists.
    split at hfind
    · obtain rfl := Option.some.inj hfind
      have hcomments := comments_of_getLast? hd hk hlast
      have hothers : codeOfOthers above c.key l = [] := by
        rw [List.eq_nil_iff_forall_not_mem]
        intro p hp
        obtain ⟨d, hdl, hdc, -⟩ := mem_codeOfOthers.1 hp
        exact absurd (hcomments d hdl) (by simp [hdc])
      rw [if_pos (by simp), hothers, List.nil_append, filter_isCode_comments hcomments,
        List.append_nil]
      exact codeOf_eq_filter hdc (fun f hf => hl f (List.mem_append_left _ hf))
        (by simpa using ⟨hbc, hc⟩)
    · have hbl := List.mem_of_find?_eq_some hfind
      have hkey : c.key ≠ b.key := Node.key_ne hd' (Node.mem_preorder_self c)
        (Node.mem_preorderAll_of_mem hbl) (by rw [hk]; rfl)
      have hmem : b ∈ l.filter fun c => !c.isComment := List.mem_filter.2 ⟨hbl, by simp [hbc]⟩
      have hlast' : (l.filter fun c => !c.isComment).getLast? = some b := by
        rw [List.filter_cons] at hlast
        split at hlast
        · rwa [List.getLast?_cons_of_ne_nil (List.ne_nil_of_mem hmem)] at hlast
        · exact hlast
      have ih := codeOfParts_eq_filter hdl (fun f hf => hl f (List.mem_append_right _ hf)) hc hfind
        hk hlast'
      split
      · next hcc =>
        have hcc : c.isComment = true := by simpa [hkey] using hcc
        rw [ih, filter_isCode_comment hcc, List.nil_append]
      · next hcc =>
        have hcc : c.isComment = false := by simpa [hkey] using hcc
        rw [List.append_assoc, ih, codeOf_eq_filter hdc
          (fun f hf => hl f (List.mem_append_left _ hf)) (by simpa using ⟨hcc, hc⟩)]

end

/-- Where the bodies of functions come last, the code is in pre-order. -/
theorem code_eq_filter {root : Node} (hd : root.ScopesApart) (hl : Node.BodiesLast root.preorder)
    (hc : root.isComment = false) :
    code root = (Place.root root).preorder.filter isCode := by
  rw [Node.ScopesApart, Node.preorder_eq] at hd
  rw [Node.preorder_eq] at hl
  have h : codeOfAll [root] root.allChildren = _ := codeOfAll_eq_filter
    (hd.sublist (Node.scopeKeys_sublist (sublist_cons_self _ _)))
    (fun f hf => hl f (List.mem_cons_of_mem _ hf)) (by simpa using hc)
  rw [preorder, preorderOf_eq, List.filter_cons_of_pos (by simp [isCode, chain, Place.root, hc])]
  exact congrArg _ h

end Place
end KeyTrace
