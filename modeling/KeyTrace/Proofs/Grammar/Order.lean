/-
The order of the nodes of a program that has been read.

The parts of a node, which are its children but for the comments, lie in the node one
after the other. So of two nodes the one that comes later in pre-order is inside the
other, or starts where the other has stopped. Comments are put among the parts and move
none of them, and counting in bytes keeps the order of characters.
-/
import KeyTrace.Proofs.Grammar.Programs

namespace KeyTrace

/-- Those of some nodes that are no comments. -/
def Node.unremarked (l : List Node) : List Node := l.filter fun n => !n.kind.isRemark

/-- The children that are no comments. -/
def Node.parts (n : Node) : List Node := unremarked n.allChildren

/-- A node that comes after another in pre-order is inside it, or starts where it has stopped. -/
def Node.Before (n m : Node) : Prop :=
  m ∈ preorderAll n.allChildren ∨ n.span.stop ≤ m.span.start

/-- The parts of a node lie in it one after the other, and are what they should be; comments have
nothing below them and play no role. -/
structure Node.Nests (n : Node) : Prop where
  row : Grammar.Row n.span.start n.parts n.span.stop
  nonempty : ∀ c ∈ n.parts, c.span.start < c.span.stop
  parts : n.kind.Has (n.parts.map part)
  remarks : ∀ c ∈ n.allChildren, c.kind.isRemark = true → c.allChildren = [] ∧ c.role = .none

/-- Every node of a tree nests its parts. -/
def Node.AllNest (n : Node) : Prop := ∀ m ∈ n.preorder, m.Nests

namespace Node

variable {n m c : Node}

theorem mem_unremarked : n ∈ unremarked l ↔ n ∈ l ∧ n.kind.isRemark = false := by
  simp [unremarked]

theorem unremarked_append (l l' : List Node) :
    unremarked (l ++ l') = unremarked l ++ unremarked l' := List.filter_append l l'

theorem unremarked_cons_of_remark (h : n.kind.isRemark = true) (l : List Node) :
    unremarked (n :: l) = unremarked l := List.filter_cons_of_neg (by simp [h])

theorem unremarked_cons (h : n.kind.isRemark = false) (l : List Node) :
    unremarked (n :: l) = n :: unremarked l := List.filter_cons_of_pos (by simp [h])

theorem unremarked_preorderAll : ∀ {l : List Node},
    (∀ c ∈ l, c.kind.isRemark = true → c.allChildren = []) →
    unremarked (preorderAll l) = unremarked (preorderAll (unremarked l))
  | [], _ => rfl
  | c :: l, h => by
    have ih := unremarked_preorderAll fun d hd => h d (List.mem_cons_of_mem c hd)
    cases hk : c.kind.isRemark with
    | true =>
      rw [unremarked_cons_of_remark hk, preorderAll, preorder_eq, h c List.mem_cons_self hk, preorderAll,
        List.singleton_append, unremarked_cons_of_remark hk, ih]
    | false =>
      rw [unremarked_cons hk, preorderAll, preorderAll, unremarked_append, unremarked_append, ih]

theorem AllNest.nests (h : n.AllNest) : n.Nests := h n n.mem_preorder_self

theorem AllNest.child (h : n.AllNest) (hc : c ∈ n.allChildren) : c.AllNest := fun m hm =>
  h m (mem_preorder_of_mem_allChildren hc hm)

theorem AllNest.of_mem (h : n.AllNest) (hm : m ∈ n.preorder) : m.AllNest := by
  induction n using Node.induct with
  | h n ih =>
    rw [preorder_eq, List.mem_cons, preorderAll_eq_flatMap, List.mem_flatMap] at hm
    rcases hm with rfl | ⟨c, hc, hm⟩
    · exact h
    · exact ih c hc (h.child hc) hm

theorem AllNest.part (h : n.AllNest) (hc : c ∈ n.parts) : c.AllNest := h.child (mem_unremarked.1 hc).1

theorem AllNest.unremarked_below (h : n.AllNest) :
    unremarked (preorderAll n.allChildren) = unremarked (preorderAll n.parts) :=
  unremarked_preorderAll fun c hc hk => (h.nests.remarks c hc hk).1

/-- What is inside a node and no comment is at or below one of its parts. -/
theorem AllNest.below_part (h : n.AllNest) (hm : m ∈ preorderAll n.allChildren)
    (hk : m.kind.isRemark = false) : ∃ c ∈ n.parts, m ∈ c.preorder := by
  have hmem := mem_unremarked.2 ⟨hm, hk⟩
  rw [h.unremarked_below, mem_unremarked, preorderAll_eq_flatMap, List.mem_flatMap] at hmem
  exact hmem.1

theorem AllNest.inside (h : n.AllNest) (hm : m ∈ n.preorder) (hk : m.kind.isRemark = false) :
    n.span.start ≤ m.span.start ∧ m.span.stop ≤ n.span.stop := by
  induction n using Node.induct with
  | h n ih =>
    rw [preorder_eq, List.mem_cons] at hm
    rcases hm with rfl | hm
    · exact ⟨Nat.le_refl _, Nat.le_refl _⟩
    · obtain ⟨c, hc, hm⟩ := h.below_part hm hk
      have hrow := h.nests.row.mem_le h.nests.nonempty c hc
      have hin := ih c (mem_unremarked.1 hc).1 (h.part hc) hm
      omega

/-- Of trees one after the other, the nodes of the earlier ones come before those of the later. -/
theorem pairwise_preorderAll : ∀ {a b : Nat} {l : List Node}, Grammar.Row a l b →
    (∀ c ∈ l, c.span.start < c.span.stop) → (∀ c ∈ l, c.AllNest) →
    (∀ c ∈ l, (unremarked c.preorder).Pairwise Before) →
    (unremarked (preorderAll l)).Pairwise Before
  | _, _, [], _, _, _, _ => .nil
  | _, _, c :: l, hrow, hn, hnest, hp => by
    rw [List.forall_mem_cons] at hn hnest hp
    rw [preorderAll, unremarked_append]
    refine List.pairwise_append.2 ⟨hp.1, pairwise_preorderAll hrow.2.2 hn.2 hnest.2 hp.2,
      fun x hx y hy => .inr ?_⟩
    obtain ⟨hx, hxk⟩ := mem_unremarked.1 hx
    obtain ⟨hy, hyk⟩ := mem_unremarked.1 hy
    rw [preorderAll_eq_flatMap, List.mem_flatMap] at hy
    obtain ⟨d, hd, hy⟩ := hy
    have := (hnest.1.inside hx hxk).2
    have := (hrow.2.2.mem_le hn.2 d hd).1
    have := ((hnest.2 d hd).inside hy hyk).1
    omega

theorem AllNest.pairwise_preorder (h : n.AllNest) : (unremarked n.preorder).Pairwise Before := by
  induction n using Node.induct with
  | h n ih =>
    have hparts := pairwise_preorderAll h.nests.row h.nests.nonempty (fun c hc => h.part hc)
      fun c hc => ih c (mem_unremarked.1 hc).1 (h.part hc)
    rw [← h.unremarked_below] at hparts
    rw [preorder_eq]
    cases hk : n.kind.isRemark with
    | true => rwa [unremarked_cons_of_remark hk]
    | false =>
      rw [unremarked_cons hk]
      exact .cons (fun m hm => .inl (mem_unremarked.1 hm).1) hparts

end Node

namespace Grammar

variable {i : Input} {source : Source} {d : Dialect} {n m x : Node} {inside : List Node}

theorem parts_attachAll : ∀ {l comments : List Node}, (∀ c ∈ comments, c.kind.isRemark = true) →
    (∀ c ∈ l, c.kind.isRemark = false) →
    (Node.unremarked (attachAll l comments)).map (fun c => (c.span, c.part)) =
      l.map fun c => (c.span, c.part)
  | [], comments, hc, _ => by
    rw [attachAll, Node.unremarked, List.filter_eq_nil_iff.2 fun c h => by simp [hc c h], List.map_nil]
  | c :: l, comments, hc, hl => by
    rw [List.forall_mem_cons] at hl
    obtain ⟨earlier, inside, outside, he, -, ho, heq⟩ := attachAll_cons c l comments
    have hearlier : Node.unremarked earlier = [] :=
      List.filter_eq_nil_iff.2 fun d h => by simp [hc d (he h)]
    rw [heq, Node.unremarked_append, hearlier, List.nil_append,
      Node.unremarked_cons (by rw [kind_attach, hl.1]), List.map_cons, List.map_cons,
      parts_attachAll (fun d h => hc d (ho h)) hl.2]
    simp [Node.part]

/-- What is true of a node and its children is true when comments are in the tree. -/
theorem Member.nests (hm : Member i m) (hc : ∀ c ∈ inside, i.IsComment c)
    (hs : ∀ c ∈ (attach m inside).parts, c.span.start < c.span.stop) :
    (attach m inside).Nests := by
  have hremark : ∀ c ∈ inside, c.kind.isRemark = true := fun c h => by
    rcases (hc c h).kind with hk | hk <;> rw [hk] <;> rfl
  have hparts := parts_attachAll hremark hm.bare
  rw [← allChildren_attach] at hparts
  have hspan := congrArg (List.map Prod.fst) hparts
  have hpart := congrArg (List.map Prod.snd) hparts
  simp only [List.map_map, Function.comp_def] at hspan hpart
  refine ⟨?_, hs, ?_, fun c hmem hk => ?_⟩
  · rw [span_attach]
    exact row_of_span_eq hspan hm.row
  · rw [kind_attach]
    exact hpart ▸ hm.parts
  · rw [allChildren_attach] at hmem
    rcases mem_attachAll hmem with hmem | ⟨e, he, inside', -, rfl⟩
    · exact ⟨(hc c hmem).children, (hc c hmem).role⟩
    · rw [kind_attach, hm.bare e he] at hk
      cases hk

theorem Row.inBytes {b : Nat} : ∀ {a : Nat} {l : List Node}, Row a l b →
    (∀ c ∈ l, c.span.start < c.span.stop ∧ c.span.stop ≤ source.length) →
    Row (source.offset a) (l.map (Node.mapSpan (inBytes source))) (source.offset b)
  | _, [], _, _ => trivial
  | a, c :: l, h, hl => by
    rw [List.forall_mem_cons] at hl
    rw [List.map_cons, Row, Node.span_mapSpan, inBytes_eq hl.1.1 hl.1.2]
    exact ⟨Utf8.offset_le h.1, Utf8.offset_le h.2.1, h.2.2.inBytes hl.2⟩

theorem nests_inBytes (h : n.Nests) (hn : n.span.start ≤ source.length ∧ n.span.stop ≤ source.length)
    (hc : ∀ c ∈ n.parts, c.span.stop ≤ source.length) :
    (n.mapSpan (inBytes source)).Nests := by
  have hparts : (n.mapSpan (inBytes source)).parts = n.parts.map (Node.mapSpan (inBytes source)) := by
    rw [Node.parts, Node.allChildren_mapSpan, Node.unremarked, List.filter_map]
    simp [Function.comp_def, Node.parts, Node.unremarked]
  have hspan : ∀ c ∈ n.parts, c.span.start < c.span.stop ∧ c.span.stop ≤ source.length :=
    fun c hmem => ⟨h.nonempty c hmem, hc c hmem⟩
  refine ⟨?_, fun c hmem => ?_, ?_, fun c hmem hk => ?_⟩
  · rw [hparts, Node.span_mapSpan, inBytes_of_le hn.1 hn.2]
    exact h.row.inBytes hspan
  · rw [hparts, List.mem_map] at hmem
    obtain ⟨c, hmem, rfl⟩ := hmem
    have := hspan c hmem
    rw [Node.span_mapSpan, inBytes_eq this.1 this.2]
    exact Utf8.offset_lt this.1 this.2
  · rw [hparts, Node.kind_mapSpan, List.map_map]
    simpa [Function.comp_def, Node.part] using h.parts
  · rw [Node.allChildren_mapSpan, List.mem_map] at hmem
    obtain ⟨c, hmem, rfl⟩ := hmem
    rw [Node.kind_mapSpan] at hk
    rw [Node.allChildren_mapSpan, Node.role_mapSpan, (h.remarks c hmem hk).1]
    exact ⟨rfl, (h.remarks c hmem hk).2⟩

end Grammar

namespace Program

open Grammar

theorem allNest_of_isTree {d : Dialect} {source : Source} {n : Node}
    (htree : IsTree (d.input source) n) : (n.mapSpan (inBytes source)).AllNest := by
  intro x hx
  rw [Node.preorder_mapSpan, List.mem_map] at hx
  obtain ⟨x, hx, rfl⟩ := hx
  obtain ⟨m, inside, hm, hinside, rfl⟩ := htree.members x hx
  have hspan : ∀ c ∈ (attach m inside).parts,
      c.span.start < c.span.stop ∧ c.span.stop ≤ source.length := by
    intro c hc
    have hc := (Node.mem_unremarked.1 hc).1
    refine span_of_isTree htree (Place.child_mem_preorder hx hc) ?_
    rw [allChildren_attach] at hc
    rcases mem_attachAll hc with hc | ⟨e, he, inside', -, rfl⟩
    · rcases (hinside c hc).kind with hk | hk <;> rw [hk] <;> nofun
    · rw [kind_attach]
      exact hm.children e he
  refine nests_inBytes (hm.nests hinside fun c hc => (hspan c hc).1) ?_ fun c hc => (hspan c hc).2
  rw [span_attach, ← size_input]
  exact hm.within

/-- In a program that has been read, every node nests its parts. -/
theorem allNest_of_read {doc : Document} {gs : List Text} {p : Program}
    (h : (read doc gs).outcome = .ok (some p)) : p.root.AllNest := by
  obtain ⟨_, _, -, h⟩ := parse?_of_read h
  obtain ⟨n, hn, rfl⟩ := exists_tree_of_parse? h
  exact allNest_of_isTree (isTree_parseChars hn)

end Program

end KeyTrace
