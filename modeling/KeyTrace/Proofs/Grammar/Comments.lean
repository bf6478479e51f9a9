/-
The comments of a program that has been read.

The grammar builds no comments; they are put into the tree that it builds, each in no
role and with nothing below it.
-/
import KeyTrace.Proofs.Grammar.Programs
import KeyTrace.Proofs.Syntax.Comments

namespace KeyTrace

namespace Grammar

variable {i : Input} {n x : Node}

theorem isAside_of_parseChars (h : parseChars i = some n) (hx : x ∈ n.preorder)
    (hk : x.kind = .comment) : x.role = .none ∧ x.allChildren = [] := by
  unfold parseChars at h
  split at h
  · next m cursor hm =>
    cases h
    obtain ⟨cs, rfl, -, hcs, hcomments⟩ := program_sound hm
    have hleaf : ∀ c ∈ cursor.comments.reverse, c.allChildren = [] := fun c hc =>
      (hcomments c (List.mem_reverse.1 hc)).children
    rcases mem_preorder_attach hleaf hx with hx | ⟨m, hm, inside, -, rfl⟩
    · have hx := hcomments x (List.mem_reverse.1 hx)
      exact ⟨hx.role, hx.children⟩
    · rw [kind_attach] at hk
      rw [Node.preorder_eq, List.mem_cons, Node.preorderAll_eq_flatMap, List.mem_flatMap] at hm
      rcases hm with rfl | ⟨c, hc, hm⟩
      · cases hk
      · exact absurd ((hcs c hc).sound m hm).comment (by simp [hk, Kind.isRemark])
  · cases h

end Grammar

/-- A comment of a program that has been read plays no role and has nothing below it. -/
theorem Program.isAside_of_read {doc : Document} {gs : List Text} {p : Program}
    (h : (read doc gs).outcome = .ok (some p)) {x : Node} (hx : x ∈ p.root.preorder)
    (hk : x.kind = .comment) : x.isAside = true := by
  obtain ⟨d, source, -, hp⟩ := parse?_of_read h
  obtain ⟨n, hn, rfl⟩ := exists_tree_of_parse? hp
  rw [Node.preorder_mapSpan, List.mem_map] at hx
  obtain ⟨x, hx, rfl⟩ := hx
  rw [Node.kind_mapSpan] at hk
  obtain ⟨hr, hcs⟩ := Grammar.isAside_of_parseChars hn hx hk
  simp [Node.isAside, Node.isPassed, Node.isComment, hk, hr, Node.allChildren_mapSpan, hcs]

end KeyTrace
