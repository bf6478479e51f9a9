/-
The places of a tree in pre-order: how they arise from those below the children,
and that they are one for one the nodes in pre-order.
-/
import KeyTrace.Syntax.Node

namespace KeyTrace

namespace Node

theorem sizeOf_lt {n c : Node} (h : c ∈ n.allChildren) : sizeOf c < sizeOf n := by
  obtain ⟨r, k, s, cs⟩ := n
  have := List.sizeOf_lt_of_mem (show c ∈ cs from h)
  simp only [Node.mk.sizeOf_spec]
  omega

/-- What is true of a node when it is true of all of its children is true of every node. -/
@[elab_as_elim]
theorem induct {P : Node → Prop} (h : ∀ n, (∀ c ∈ n.allChildren, P c) → P n) (n : Node) : P n :=
  h n fun c hc =>
    have := sizeOf_lt hc
    induct h c
termination_by sizeOf n

theorem preorderAll_eq_flatMap : ∀ l : List Node, preorderAll l = l.flatMap preorder
  | [] => rfl
  | c :: l => by rw [preorderAll, preorderAll_eq_flatMap l, List.flatMap_cons]

theorem preorder_eq (n : Node) : n.preorder = n :: preorderAll n.allChildren := by
  cases n
  rfl

theorem mem_preorder_self (n : Node) : n ∈ n.preorder := by
  rw [preorder_eq]
  exact List.mem_cons_self

theorem mem_preorderAll_of_mem {c : Node} {l : List Node} (hc : c ∈ l) : c ∈ preorderAll l := by
  rw [preorderAll_eq_flatMap]
  exact List.mem_flatMap.2 ⟨c, hc, c.mem_preorder_self⟩

end Node

namespace Place

theorem preorderOf_eq (above : List Node) (n : Node) :
    preorderOf above n = ⟨n, above⟩ :: preorderOfAll (n :: above) n.allChildren := by
  cases n
  rfl

theorem mem_preorderOfAll {above : List Node} {p : Place} : ∀ {l : List Node},
    p ∈ preorderOfAll above l ↔ ∃ c ∈ l, p ∈ preorderOf above c
  | [] => by simp [preorderOfAll]
  | c :: l => by simp [preorderOfAll, mem_preorderOfAll (l := l)]

mutual

/-- The places of a tree hold its nodes, in the same order. -/
theorem map_node_preorderOf (above : List Node) :
    ∀ n, (preorderOf above n).map Place.node = n.preorder
  | .mk r k s cs => by
    rw [preorderOf, Node.preorder, List.map_cons, map_node_preorderOfAll]

theorem map_node_preorderOfAll (above : List Node) :
    ∀ l, (preorderOfAll above l).map Place.node = Node.preorderAll l
  | [] => rfl
  | c :: l => by
    rw [preorderOfAll, Node.preorderAll, List.map_append, map_node_preorderOf,
      map_node_preorderOfAll]

end

mutual

/-- What is right above a place is a place, but for the top. -/
theorem up_mem_preorderOf {above : List Node} {m a : Node} {as : List Node} :
    ∀ {n}, ⟨m, a :: as⟩ ∈ preorderOf above n →
      a :: as = above ∨ ⟨a, as⟩ ∈ preorderOf above n
  | .mk r k s cs, h => by
    rw [preorderOf, List.mem_cons] at h
    rcases h with h | h
    · cases h
      exact .inl rfl
    · rcases up_mem_preorderOfAll h with h | h
      · cases h
        exact .inr List.mem_cons_self
      · exact .inr (List.mem_cons_of_mem _ h)

theorem up_mem_preorderOfAll {above : List Node} {m a : Node} {as : List Node} :
    ∀ {l}, ⟨m, a :: as⟩ ∈ preorderOfAll above l →
      a :: as = above ∨ ⟨a, as⟩ ∈ preorderOfAll above l
  | c :: l, h => by
    rw [preorderOfAll, List.mem_append] at h ⊢
    rcases h with h | h
    · exact (up_mem_preorderOf h).imp_right .inl
    · exact (up_mem_preorderOfAll h).imp_right .inr

end

/-- Whatever is above a place of a tree is a place of it. -/
theorem up_mem_preorder {root m a : Node} {as : List Node}
    (h : ⟨m, a :: as⟩ ∈ (Place.root root).preorder) : ⟨a, as⟩ ∈ (Place.root root).preorder :=
  (up_mem_preorderOf h).resolve_left (by simp [Place.root])

mutual

theorem mem_allChildren_of_mem {above : List Node} {m a : Node} {as : List Node} :
    ∀ {n}, ⟨m, a :: as⟩ ∈ preorderOf above n →
      m = n ∧ a :: as = above ∨ m ∈ a.allChildren
  | .mk r k s cs, h => by
    rw [preorderOf, List.mem_cons] at h
    rcases h with h | h
    · cases h
      exact .inl ⟨rfl, rfl⟩
    · rcases mem_allChildren_of_memAll h with ⟨hm, h⟩ | h
      · cases h
        exact .inr hm
      · exact .inr h

theorem mem_allChildren_of_memAll {above : List Node} {m a : Node} {as : List Node} :
    ∀ {l}, ⟨m, a :: as⟩ ∈ preorderOfAll above l →
      m ∈ l ∧ a :: as = above ∨ m ∈ a.allChildren
  | c :: l, h => by
    rw [preorderOfAll, List.mem_append] at h
    rcases h with h | h
    · rcases mem_allChildren_of_mem h with ⟨rfl, habove⟩ | hm
      · exact .inl ⟨List.mem_cons_self, habove⟩
      · exact .inr hm
    · exact (mem_allChildren_of_memAll h).imp_left fun h => ⟨List.mem_cons_of_mem _ h.1, h.2⟩

end

/-- A node of a tree is a child of what is right above it. -/
theorem mem_allChildren_of_up {root m a : Node} {as : List Node}
    (h : ⟨m, a :: as⟩ ∈ (Place.root root).preorder) : m ∈ a.allChildren :=
  (mem_allChildren_of_mem h).resolve_left (by simp [Place.root])

mutual

theorem suffix_above_of_mem {above : List Node} {p : Place} :
    ∀ {n}, p ∈ preorderOf above n → above <:+ p.above
  | .mk r k s cs, h => by
    rw [preorderOf, List.mem_cons] at h
    rcases h with rfl | h
    · exact List.suffix_refl above
    · exact (List.suffix_cons _ above).trans (suffix_above_of_memAll h)

theorem suffix_above_of_memAll {above : List Node} {p : Place} :
    ∀ {l}, p ∈ preorderOfAll above l → above <:+ p.above
  | c :: l, h => by
    rw [preorderOfAll, List.mem_append] at h
    rcases h with h | h
    · exact suffix_above_of_mem h
    · exact suffix_above_of_memAll h

end

mutual

theorem child_mem_preorderOf {n c : Node} {as : List Node} (hc : c ∈ n.allChildren) :
    ∀ {m above}, ⟨n, as⟩ ∈ preorderOf above m → ⟨c, n :: as⟩ ∈ preorderOf above m
  | .mk r k s cs, above, h => by
    rw [preorderOf, List.mem_cons] at h ⊢
    refine .inr ?_
    rcases h with h | h
    · cases h
      refine mem_preorderOfAll.2 ⟨c, hc, ?_⟩
      rw [preorderOf_eq]
      exact List.mem_cons_self
    · exact child_mem_preorderOfAll hc h

theorem child_mem_preorderOfAll {n c : Node} {as : List Node} (hc : c ∈ n.allChildren) :
    ∀ {l above}, ⟨n, as⟩ ∈ preorderOfAll above l → ⟨c, n :: as⟩ ∈ preorderOfAll above l
  | m :: l, above, h => by
    rw [preorderOfAll, List.mem_append] at h ⊢
    exact h.imp (child_mem_preorderOf hc) (child_mem_preorderOfAll hc)

end

/-- A node is at some place. -/
theorem exists_mem_preorderOf {n m : Node} (h : m ∈ n.preorder) : ∃ as, ⟨m, as⟩ ∈ preorderOf [] n := by
  rw [← map_node_preorderOf [] n, List.mem_map] at h
  obtain ⟨⟨m, as⟩, h, rfl⟩ := h
  exact ⟨as, h⟩

/-- The children of a node of a tree are nodes of it. -/
theorem child_mem_preorder {n m c : Node} (hm : m ∈ n.preorder) (hc : c ∈ m.allChildren) :
    c ∈ n.preorder := by
  obtain ⟨as, has⟩ := exists_mem_preorderOf hm
  rw [← map_node_preorderOf [] n]
  exact List.mem_map_of_mem (child_mem_preorderOf hc has)

/-- The children of a place of a tree are places of it. -/
theorem children_subset_preorder {root : Node} {p : Place} (h : p ∈ (Place.root root).preorder) :
    p.children ⊆ (Place.root root).preorder := by
  intro q hq
  obtain ⟨c, hc, rfl⟩ := List.mem_map.1 hq
  exact child_mem_preorderOf (List.mem_filter.1 hc).1 h

/-- A place with nothing above it is the top. -/
theorem eq_root_of_mem_preorder {root m : Node} (h : ⟨m, []⟩ ∈ (Place.root root).preorder) :
    m = root := by
  rw [preorder, preorderOf_eq, List.mem_cons] at h
  rcases h with h | h
  · exact congrArg Place.node h
  · exact absurd (suffix_above_of_memAll h) (by simp)

end Place
end KeyTrace
