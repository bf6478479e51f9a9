/-
Trees with comments put into them: what becomes of the nodes of a tree.
-/
import KeyTrace.Grammar.Parse
import KeyTrace.Proofs.Grammar.Sound
import KeyTrace.Proofs.Syntax.Moves

namespace KeyTrace

namespace Node

theorem preorderAll_append (l l' : List Node) :
    preorderAll (l ++ l') = preorderAll l ++ preorderAll l' := by
  rw [preorderAll_eq_flatMap, List.flatMap_append, ← preorderAll_eq_flatMap,
    ← preorderAll_eq_flatMap]

end Node

namespace Grammar

variable {i : Input} {comments : List Node} {n m x : Node}

@[simp] theorem span_attach (n : Node) (comments : List Node) : (attach n comments).span = n.span := by
  obtain ⟨_, _, _, _⟩ := n
  rfl

@[simp] theorem role_attach (n : Node) (comments : List Node) : (attach n comments).role = n.role := by
  obtain ⟨_, _, _, _⟩ := n
  rfl

theorem allChildren_attach (n : Node) (comments : List Node) :
    (attach n comments).allChildren = attachAll n.allChildren comments := by
  obtain ⟨_, _, _, _⟩ := n
  rfl

theorem attachAll_cons (c : Node) (l comments : List Node) : ∃ earlier inside outside,
    earlier ⊆ comments ∧ inside ⊆ comments ∧ outside ⊆ comments ∧
    attachAll (c :: l) comments = earlier ++ attach c inside :: attachAll l outside := by
  have hdrop {p : Node → Bool} {l : List Node} : l.dropWhile p ⊆ l := (List.dropWhile_sublist p).subset
  have htake {p : Node → Bool} {l : List Node} : l.takeWhile p ⊆ l := (List.takeWhile_sublist p).subset
  exact ⟨_, _, _, htake, fun _ h => hdrop (htake h), fun _ h => hdrop (hdrop h), rfl⟩

/-- What is below a node with comments put into it is a comment, or was there before. -/
theorem mem_attachAll : ∀ {l comments : List Node} {x : Node}, x ∈ attachAll l comments →
    x ∈ comments ∨ ∃ c ∈ l, ∃ inside, inside ⊆ comments ∧ x = attach c inside
  | [], _, _, h => .inl h
  | c :: l, comments, x, h => by
    obtain ⟨earlier, inside, outside, he, hi, ho, heq⟩ := attachAll_cons c l comments
    rw [heq, List.mem_append, List.mem_cons] at h
    rcases h with h | rfl | h
    · exact .inl (he h)
    · exact .inr ⟨c, List.mem_cons_self, inside, hi, rfl⟩
    · rcases mem_attachAll h with h | ⟨d, hd, inside', hi', rfl⟩
      · exact .inl (ho h)
      · exact .inr ⟨d, List.mem_cons_of_mem _ hd, inside', fun _ h => ho (hi' h), rfl⟩

theorem attach_mem_attachAll : ∀ {l : List Node} (comments : List Node) {c : Node}, c ∈ l →
    ∃ inside, inside ⊆ comments ∧ attach c inside ∈ attachAll l comments
  | d :: l, comments, c, h => by
    obtain ⟨earlier, inside, outside, -, hi, ho, heq⟩ := attachAll_cons d l comments
    rw [heq]
    rcases List.mem_cons.1 h with rfl | h
    · exact ⟨inside, hi, List.mem_append_right _ List.mem_cons_self⟩
    · obtain ⟨inside', hi', h⟩ := attach_mem_attachAll outside h
      exact ⟨inside', fun _ h => ho (hi' h),
        List.mem_append_right _ (List.mem_cons_of_mem _ h)⟩

theorem mem_of_mem_preorderAll_leaves {l : List Node} (hl : ∀ c ∈ l, c.allChildren = [])
    (hx : x ∈ Node.preorderAll l) : x ∈ l := by
  rw [Node.preorderAll_eq_flatMap, List.mem_flatMap] at hx
  obtain ⟨c, hc, hx⟩ := hx
  rw [Node.preorder_eq, hl c hc, Node.preorderAll, List.mem_singleton] at hx
  exact hx ▸ hc

mutual

/-- The nodes of a tree with comments put into it are the comments and those that were there. -/
theorem mem_preorder_attach : ∀ {n : Node} {comments : List Node} {x : Node},
    (∀ c ∈ comments, c.allChildren = []) → x ∈ (attach n comments).preorder →
    x ∈ comments ∨ ∃ m ∈ n.preorder, ∃ inside, inside ⊆ comments ∧ x = attach m inside
  | .mk r k s cs, comments, x, hc, h => by
    rw [attach, Node.preorder, List.mem_cons] at h
    rcases h with rfl | h
    · exact .inr ⟨_, Node.mem_preorder_self _, comments, fun _ h => h, rfl⟩
    · rcases mem_preorderAll_attachAll hc h with h | ⟨m, hm, h⟩
      · exact .inl h
      · exact .inr ⟨m, List.mem_cons_of_mem _ hm, h⟩

theorem mem_preorderAll_attachAll : ∀ {l comments : List Node} {x : Node},
    (∀ c ∈ comments, c.allChildren = []) → x ∈ Node.preorderAll (attachAll l comments) →
    x ∈ comments ∨ ∃ m ∈ Node.preorderAll l, ∃ inside, inside ⊆ comments ∧ x = attach m inside
  | [], comments, x, hc, h => .inl (mem_of_mem_preorderAll_leaves hc h)
  | c :: l, comments, x, hc, h => by
    obtain ⟨earlier, inside, outside, he, hi, ho, heq⟩ := attachAll_cons c l comments
    rw [heq, Node.preorderAll_append, List.mem_append, Node.preorderAll, List.mem_append] at h
    rcases h with h | h | h
    · exact .inl (he (mem_of_mem_preorderAll_leaves (fun c h => hc c (he h)) h))
    · rcases mem_preorder_attach (fun c h => hc c (hi h)) h with h | ⟨m, hm, inside', hi', rfl⟩
      · exact .inl (hi h)
      · exact .inr ⟨m, List.mem_append_left _ hm, inside', fun _ h => hi (hi' h), rfl⟩
    · rcases mem_preorderAll_attachAll (fun c h => hc c (ho h)) h with h | ⟨m, hm, inside', hi', rfl⟩
      · exact .inl (ho h)
      · exact .inr ⟨m, List.mem_append_right _ hm, inside', fun _ h => ho (hi' h), rfl⟩

end

end Grammar

end KeyTrace
