/-
In a program that has been read, no two nodes that a scope can belong to have the same
span and kind: what is inside such a node takes less room than the node, and what is
beside it takes other room.
-/
import KeyTrace.Proofs.Grammar.Programs
import Mathlib.Data.List.Nodup

namespace KeyTrace

namespace Node

theorem scopeKeys_append (l l' : List Node) : scopeKeys (l ++ l') = scopeKeys l ++ scopeKeys l' := by
  rw [scopeKeys, List.filter_append, List.map_append]
  rfl

theorem scopeKeys_of_forms {n : Node} (h : n.kind.formsScope = true) (l : List Node) :
    scopeKeys (n :: l) = n.key :: scopeKeys l := by
  rw [scopeKeys, List.filter_cons_of_pos (by simpa using h), List.map_cons]
  rfl

theorem scopeKeys_of_not_forms {n : Node} (h : n.kind.formsScope = false) (l : List Node) :
    scopeKeys (n :: l) = scopeKeys l := by
  rw [scopeKeys, List.filter_cons_of_neg (by simp [h])]
  rfl

theorem mem_scopeKeys {l : List Node} {k : Key} :
    k ∈ scopeKeys l ↔ ∃ n ∈ l, n.kind.formsScope = true ∧ n.key = k := by
  simp [scopeKeys, and_assoc]

theorem scopeKeys_map_mapSpan (f : Span → Span) (l : List Node) :
    scopeKeys (l.map (mapSpan f)) = (scopeKeys l).map fun k => ⟨f k.span, k.kind⟩ := by
  rw [scopeKeys, scopeKeys, List.filter_map, List.map_map, List.map_map]
  simp [Function.comp_def, key]

end Node

namespace Grammar

variable {i : Input} {n m : Node}

theorem Sound.child (h : Sound i n) {c : Node} (hc : c ∈ n.allChildren) : Sound i c :=
  fun x hx => h x (by
    rw [Node.preorder_eq, Node.preorderAll_eq_flatMap]
    exact List.mem_cons_of_mem _ (List.mem_flatMap.2 ⟨c, hc, hx⟩))

theorem Sound.good (h : Sound i n) : Good i n := h n n.mem_preorder_self

/-- What is inside a node lies within its span. -/
theorem Sound.inside (h : Sound i n) (hm : m ∈ n.preorder) :
    n.span.start ≤ m.span.start ∧ m.span.stop ≤ n.span.stop := by
  induction n using Node.induct with
  | h n ih =>
    rw [Node.preorder_eq, List.mem_cons, Node.preorderAll_eq_flatMap, List.mem_flatMap] at hm
    rcases hm with rfl | ⟨c, hc, hm⟩
    · exact ⟨Nat.le_refl _, Nat.le_refl _⟩
    · have hrow := h.good.row.mem_le (fun c hc => (h.child hc).good.nonempty) c hc
      have hin := ih c hc (h.child hc) hm
      omega

/-- Trees one after the other have no key in common. -/
theorem nodup_scopeKeys_of_row : ∀ {a b : Nat} {l : List Node}, Row a l b →
    (∀ c ∈ l, Sound i c) → (∀ c ∈ l, (Node.scopeKeys c.preorder).Nodup) →
    (Node.scopeKeys (Node.preorderAll l)).Nodup
  | _, _, [], _, _, _ => List.nodup_nil
  | a, b, c :: l, hrow, hs, hd => by
    have hl := fun d hd => hs d (List.mem_cons_of_mem c hd)
    rw [Node.preorderAll, Node.scopeKeys_append, List.nodup_append]
    refine ⟨hd c List.mem_cons_self, nodup_scopeKeys_of_row hrow.2.2 hl
      fun d hm => hd d (List.mem_cons_of_mem c hm), ?_⟩
    rintro k hk _ hk' rfl
    obtain ⟨m, hm, -, hkey⟩ := Node.mem_scopeKeys.1 hk
    obtain ⟨m', hm', -, rfl⟩ := Node.mem_scopeKeys.1 hk'
    rw [Node.preorderAll_eq_flatMap, List.mem_flatMap] at hm'
    obtain ⟨d, hd, hm'⟩ := hm'
    have hspan : m.span = m'.span := congrArg Node.Key.span hkey
    have hne := (hs c List.mem_cons_self m hm).nonempty
    have hin := (hs c List.mem_cons_self).inside hm
    have hin' := (hl d hd).inside hm'
    have hrow' := hrow.2.2.mem_le (fun d hd => (hl d hd).good.nonempty) d hd
    rw [hspan] at hne hin
    omega

theorem Sound.nodup_scopeKeys (h : Sound i n) : (Node.scopeKeys n.preorder).Nodup := by
  induction n using Node.induct with
  | h n ih =>
    have hall := nodup_scopeKeys_of_row h.good.row (fun c hc => h.child hc)
      fun c hc => ih c hc (h.child hc)
    rw [Node.preorder_eq]
    cases hk : n.kind.formsScope with
    | false => rwa [Node.scopeKeys_of_not_forms hk]
    | true =>
      rw [Node.scopeKeys_of_forms hk, List.nodup_cons]
      refine ⟨fun hmem => ?_, hall⟩
      obtain ⟨m, hm, -, hkey⟩ := Node.mem_scopeKeys.1 hmem
      rw [Node.preorderAll_eq_flatMap, List.mem_flatMap] at hm
      obtain ⟨c, hc, hm⟩ := hm
      have hspan : m.span = n.span := congrArg Node.Key.span hkey
      have hrow := h.good.row.mem_le (fun c hc => (h.child hc).good.nonempty) c hc
      have hin := (h.child hc).inside hm
      have hopens : n.kind.opensScope = true := by
        simpa [Kind.formsScope, h.good.kind] using hk
      -- a child that took all of the room would have the span of the node
      refine h.good.smaller hopens c hc ?_
      rw [hspan] at hin
      change (⟨c.span.start, c.span.stop⟩ : Span) = ⟨n.span.start, n.span.stop⟩
      rw [Span.mk.injEq]
      omega

section Comments

theorem Input.IsComment.not_formsScope (h : i.IsComment n) : n.kind.formsScope = false := by
  rcases h.kind with hk | hk <;> rw [hk] <;> rfl

theorem scopeKeys_comments : ∀ {comments : List Node}, (∀ c ∈ comments, i.IsComment c) →
    Node.scopeKeys (Node.preorderAll comments) = []
  | [], _ => rfl
  | c :: comments, h => by
    have hc := h c List.mem_cons_self
    rw [Node.preorderAll, Node.preorder_eq, hc.children, List.cons_append,
      Node.scopeKeys_of_not_forms hc.not_formsScope]
    exact scopeKeys_comments fun d hd => h d (List.mem_cons_of_mem c hd)

mutual

/-- Comments leave the keys of a tree as they are. -/
theorem scopeKeys_attach : ∀ {n : Node} {comments : List Node}, (∀ c ∈ comments, i.IsComment c) →
    Node.scopeKeys (attach n comments).preorder = Node.scopeKeys n.preorder
  | .mk r k s cs, comments, h => by
    have hall := scopeKeys_attachAll (l := cs) h
    rw [attach, Node.preorder, Node.preorder]
    cases hk : k.formsScope with
    | false =>
      rw [Node.scopeKeys_of_not_forms (n := .mk r k s _) hk,
        Node.scopeKeys_of_not_forms (n := .mk r k s _) hk, hall]
    | true =>
      rw [Node.scopeKeys_of_forms (n := .mk r k s _) hk,
        Node.scopeKeys_of_forms (n := .mk r k s _) hk, hall]
      rfl

theorem scopeKeys_attachAll : ∀ {l comments : List Node}, (∀ c ∈ comments, i.IsComment c) →
    Node.scopeKeys (Node.preorderAll (attachAll l comments)) = Node.scopeKeys (Node.preorderAll l)
  | [], comments, h => scopeKeys_comments h
  | c :: l, comments, h => by
    obtain ⟨earlier, inside, outside, he, hi, ho, heq⟩ := attachAll_cons c l comments
    rw [heq, Node.preorderAll_append, Node.preorderAll, Node.preorderAll, Node.scopeKeys_append,
      Node.scopeKeys_append, Node.scopeKeys_append, scopeKeys_comments fun d hd => h d (he hd),
      List.nil_append, scopeKeys_attach (n := c) fun d hd => h d (hi hd),
      scopeKeys_attachAll (l := l) fun d hd => h d (ho hd)]

end

end Comments

/-- No two nodes that a scope can belong to have the same span of characters and the same kind, and
there is one program alone. -/
theorem scopesApart_parseChars (h : parseChars i = some n) :
    n.ScopesApart ∧ ∀ k ∈ Node.scopeKeys n.preorder, k.kind = .program → k = n.key := by
  unfold parseChars at h
  split at h
  · next m cursor hm =>
    cases h
    obtain ⟨cs, rfl, hrow, hcs, hcomments⟩ := program_sound hm
    have hs := fun c hc => (hcs c hc).sound
    have hinside := nodup_scopeKeys_of_row hrow hs fun c hc => (hs c hc).nodup_scopeKeys
    have hkind : ∀ k ∈ Node.scopeKeys (Node.preorderAll cs), k.kind ≠ .program := by
      intro k hk
      obtain ⟨m, hm, -, rfl⟩ := Node.mem_scopeKeys.1 hk
      rw [Node.preorderAll_eq_flatMap, List.mem_flatMap] at hm
      obtain ⟨c, hc, hm⟩ := hm
      exact (hs c hc m hm).kind
    rw [Node.ScopesApart, scopeKeys_attach fun c hc => hcomments c (List.mem_reverse.1 hc),
      Node.preorder, Node.scopeKeys_of_forms rfl, List.nodup_cons]
    refine ⟨⟨fun hmem => hkind _ hmem rfl, hinside⟩, fun k hk hp => ?_⟩
    rcases List.mem_cons.1 hk with rfl | hk
    · rfl
    · exact absurd hp (hkind k hk)
  · cases h

end Grammar

namespace Program

open Grammar

/-- Different stretches of characters are different stretches of bytes. -/
theorem inBytes_inj {source : Source} {s s' : Span} (hs : s.start < s.stop ∧ s.stop ≤ source.length)
    (hs' : s'.start < s'.stop ∧ s'.stop ≤ source.length)
    (h : inBytes source s = inBytes source s') : s = s' := by
  have hinj {a b : Nat} (ha : a ≤ source.length) (hb : b ≤ source.length)
      (h : source.offset a = source.offset b) : a = b := by
    rcases Nat.lt_trichotomy a b with hab | hab | hab
    · exact absurd h (Nat.ne_of_lt (Utf8.offset_lt hab hb))
    · exact hab
    · exact absurd h.symm (Nat.ne_of_lt (Utf8.offset_lt hab ha))
  rw [inBytes_eq hs.1 hs.2, inBytes_eq hs'.1 hs'.2, Source.stretch, Source.stretch,
    Span.mk.injEq] at h
  obtain ⟨a, b⟩ := s
  obtain ⟨a', b'⟩ := s'
  rw [Span.mk.injEq]
  exact ⟨hinj (Nat.le_trans (Nat.le_of_lt hs.1) hs.2) (Nat.le_trans (Nat.le_of_lt hs'.1) hs'.2) h.1,
    hinj hs.2 hs'.2 h.2⟩

theorem scopesApart_of_parse? {d : Dialect} {source : Source} {p : Program}
    (h : parse? d source = some p) : p.root.ScopesApart := by
  obtain ⟨n, hn, rfl⟩ := exists_tree_of_parse? h
  have htree := isTree_parseChars hn
  obtain ⟨hapart, hprogram⟩ := scopesApart_parseChars hn
  change Node.ScopesApart (n.mapSpan (inBytes source))
  rw [Node.ScopesApart, Node.preorder_mapSpan, Node.scopeKeys_map_mapSpan]
  refine List.Nodup.map_on (fun k hk k' hk' he => ?_) hapart
  obtain ⟨hspan, hkind⟩ := Node.Key.mk.inj he
  by_cases hp : k.kind = .program
  · rw [hprogram k hk hp, hprogram k' hk' (hkind ▸ hp)]
  · have hbounds {k : Node.Key} (hk : k ∈ Node.scopeKeys n.preorder) (hp : k.kind ≠ .program) :
        k.span.start < k.span.stop ∧ k.span.stop ≤ source.length := by
      obtain ⟨m, hm, -, rfl⟩ := Node.mem_scopeKeys.1 hk
      exact span_of_isTree htree hm hp
    have := inBytes_inj (hbounds hk hp) (hbounds hk' (hkind ▸ hp)) hspan
    obtain ⟨_, _⟩ := k
    obtain ⟨_, _⟩ := k'
    rw [Node.Key.mk.injEq]
    exact ⟨this, hkind⟩

/-- In a program that has been read, no two nodes that a scope can belong to have the same span and
kind. -/
theorem scopesApart_of_read {doc : Document} {gs : List Text} {p : Program}
    (h : (read doc gs).outcome = .ok (some p)) : p.root.ScopesApart := by
  obtain ⟨_, _, -, hp⟩ := parse?_of_read h
  exact scopesApart_of_parse? hp

end Program

end KeyTrace
