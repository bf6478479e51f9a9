/-
Laying out keeps the first character of a text (`head?_lay`), if it is not white space
and there is room for it.
-/
import KeyTrace.Proofs.Text.Pieces
import KeyTrace.Text.Wrap
import Mathlib.Data.List.Basic

namespace KeyTrace.Wrap

variable {c : CodePoint} {width : Nat} {t word piece : Text} {lines : List Text}

section Words

/-- A word that is being read goes on to be the first. -/
theorem wordsFrom_head? (hc : isBlank c = false) : ∀ {word t : Text} {inside : Bool},
    word.getLast? = some c → (wordsFrom word inside t).head?.bind List.head? = some c := by
  intro word t inside hword
  have hmem : c ∈ word := List.mem_of_getLast? hword
  have hall : word.all isBlank = false := List.all_eq_false.2 ⟨c, hmem, by simp [hc]⟩
  induction t generalizing word inside with
  | nil => simp [wordsFrom, hall, hword]
  | cons d t ih =>
    have hlonger : (d :: word).getLast? = some c := by
      rw [List.getLast?_cons, hword]
      rfl
    have hmem := List.mem_cons_of_mem d hmem
    have ih (b : Bool) : (wordsFrom (d :: word) b t).head?.bind List.head? = some c :=
      ih hlonger hmem (List.all_eq_false.2 ⟨c, hmem, by simp [hc]⟩)
    rw [wordsFrom]
    split_ifs
    · exact ih false
    · exact ih true
    · simp [hword]

theorem words_head? (hc : isBlank c = false) (t : Text) :
    (words (c :: t)).head?.bind List.head? = some c := by
  rw [words, wordsFrom, hc]
  exact wordsFrom_head? hc rfl

/-- A piece that is being filled goes on to be the first. -/
theorem chopFrom_head? (width : Nat) : ∀ {piece t : Text} {cells : Nat},
    piece.getLast? = some c →
      (chopFrom width piece cells t).head?.bind List.head? = some c := by
  intro piece t cells hpiece
  induction t generalizing piece cells with
  | nil => simp [chopFrom, hpiece]
  | cons d t ih =>
    rw [chopFrom]
    split
    · simp [hpiece]
    · refine ih ?_
      rw [List.getLast?_cons, hpiece]
      rfl

theorem chop_head? (hc : cellWidth c ≤ width) (t : Text) :
    (chop width (c :: t)).head?.bind List.head? = some c := by
  rw [chop, chopFrom, if_neg (by omega)]
  exact chopFrom_head? width rfl

end Words

section Lines

/-- The first of some lines, which are kept backwards, starts with a character. -/
def StartWith (c : CodePoint) (lines : List Text) : Prop := lines.getLast?.bind List.head? = some c

theorem StartWith.all_isEmpty (h : StartWith c lines) : lines.all (·.isEmpty) = false := by
  rw [StartWith, Option.bind_eq_some_iff] at h
  obtain ⟨l, hl, hc⟩ := h
  refine List.all_eq_false.2 ⟨l, List.mem_of_getLast? hl, ?_⟩
  rw [List.isEmpty_iff]
  rintro rfl
  cases hc

theorem StartWith.cons (h : StartWith c lines) (l : Text) : StartWith c (l :: lines) := by
  rw [StartWith, Option.bind_eq_some_iff] at h ⊢
  obtain ⟨l', hl', hc⟩ := h
  refine ⟨l', ?_, hc⟩
  rw [List.getLast?_cons, hl']
  rfl

theorem StartWith.startLine (h : StartWith c lines) (piece : Text) :
    StartWith c (startLine lines piece) := by
  rw [Wrap.startLine, h.all_isEmpty]
  exact h.cons piece

theorem StartWith.startLines (h : StartWith c lines) (pieces : List Text) :
    StartWith c (pieces.foldl Wrap.startLine lines) := by
  induction pieces generalizing lines with
  | nil => exact h
  | cons p ps ih => exact ih (h.startLine p)

theorem StartWith.continueLine (h : StartWith c lines) (piece : Text) :
    StartWith c (continueLine lines piece) := by
  match lines, h with
  | [l], h =>
    have hl : l.head? = some c := h
    simp [StartWith, Wrap.continueLine, List.head?_append, hl]
  | _ :: l :: ls, h =>
    have hrest : StartWith c (l :: ls) := h
    exact hrest.cons _

/-- Further words do not change the start of the first line. -/
theorem StartWith.addWord {used : Nat} (h : StartWith c lines) (width : Nat) (word : Text) :
    StartWith c (addWord .fold width (lines, used) word).1 := by
  simp only [Wrap.addWord]
  split_ifs
  · exact h.continueLine word
  · exact h.startLines (chop width word)
  · exact h.startLine word
  · exact h.continueLine word

theorem StartWith.addWords (width : Nat) (ws : List Text) {state : List Text × Nat}
    (h : StartWith c state.1) : StartWith c (ws.foldl (Wrap.addWord .fold width) state).1 := by
  induction ws generalizing state with
  | nil => exact h
  | cons w ws ih => exact ih (h.addWord width w)

/-- The first word starts the first line. -/
theorem startWith_addWord_nil (hc : cellWidth c ≤ width) (word : Text) :
    StartWith c (addWord .fold width ([], 0) (c :: word)).1 := by
  have hfirst : ([] : List Text).all (·.isEmpty) = true := rfl
  simp only [addWord]
  split_ifs
  · rfl
  · have h := chop_head? hc word
    cases hp : chop width (c :: word) with
    | nil =>
      rw [hp] at h
      cases h
    | cons p ps =>
      rw [hp] at h
      have hp : StartWith c [p] := h
      exact hp.startLines ps
  all_goals rfl

theorem breakLine_head? (hb : isBlank c = false) (hc : cellWidth c ≤ width) (t : Text) :
    (breakLine .fold width (c :: t)).head?.bind List.head? = some c := by
  have hwords := words_head? hb t
  rw [breakLine]
  cases hw : words (c :: t) with
  | nil =>
    rw [hw] at hwords
    cases hwords
  | cons w ws =>
    rw [hw] at hwords
    obtain ⟨word, rfl⟩ : ∃ word, w = c :: word := List.head?_eq_some_iff.1 hwords
    have h := (startWith_addWord_nil hc word).addWords width ws
    rw [List.foldl_cons]
    split
    next hs =>
      rw [hs] at h
      cases h
    next hs =>
      rw [hs] at h
      rwa [List.head?_reverse]

end Lines

section Cuts

theorem trimOverhang_head? (hw : 0 < width) (ht : t.head? = some c) :
    (trimOverhang width t).head? = some c := by
  rw [trimOverhang]
  split
  · rw [List.head?_take, if_neg (by omega), ht]
  · exact ht

/-- The start of a text that is looked for is never less than its first character, which takes
one cell. -/
theorem bisect_head? (hw : 0 < width) (hc : cellWidth c = 1) (ht : t.head? = some c) :
    ∀ fuel low high, (bisect width t fuel low high).head? = some c := by
  intro fuel
  induction fuel with
  | zero => exact fun _ _ => ht
  | succ fuel ih =>
    intro low high
    have hstart : (t.take ((low + high) / 2 + 1)).head? = some c := by
      rw [List.head?_take, if_neg (by omega), ht]
    rw [bisect]
    split_ifs with hwide
    · obtain ⟨r, hr⟩ := List.head?_eq_some_iff.1 hstart
      rw [hr] at hwide ⊢
      cases r with
      | nil =>
        have hcells : Text.cells [c] = 1 := by simp [Text.cells, hc]
        omega
      | cons d r => rfl
    · exact hstart
    · exact ih _ _
    · exact ih _ _

theorem truncate_head? (hw : 0 < width) (hc : cellWidth c = 1) (ht : t.head? = some c) :
    (truncate .fold width t).head? = some c := by
  rw [truncate]
  split
  next hcells =>
    rw [resize, if_neg (by omega), if_neg (by omega)]
    exact bisect_head? hw hc ht _ _ _
  next => exact ht

theorem layLine_head? (hw : 0 < width) (hc : cellWidth c = 1) (hb : isBlank c = false)
    (htab : c ≠ 9) (t : Text) :
    (layLine ⟨width, .fold, .free⟩ (c :: t)).head?.bind List.head? = some c := by
  have hroom : cellWidth c ≤ width := by omega
  have hline := breakLine_head? hb hroom (expandTabs (0 + cellWidth c) t)
  rw [layLine, expandTabs, if_neg htab, List.head?_map]
  obtain ⟨line, hhead, hstart⟩ := Option.bind_eq_some_iff.1 hline
  rw [hhead]
  exact truncate_head? hw hc (trimOverhang_head? hw hstart)

end Cuts

theorem join_head? (sep : Text) {pieces : List Text} (h : pieces.head?.bind List.head? = some c) :
    (Text.join sep pieces).head? = some c := by
  match pieces, h with
  | [p], h => exact h
  | p :: q :: ps, h =>
    have hp : p.head? = some c := h
    rw [Text.join_cons_cons, List.append_assoc, List.head?_append, hp]
    rfl

/-- **The first character stays the first**, if it is not white space and takes one cell. -/
theorem head?_lay (hw : 0 < width) (hc : cellWidth c = 1) (hb : isBlank c = false) (t : Text) :
    (Text.join [10] (lay ⟨width, .fold, .free⟩ (c :: t))).head? = some c := by
  have hne {d : CodePoint} (hd : isBlank d = true) : c ≠ d := by
    rintro rfl
    rw [hb] at hd
    cases hd
  have hstarts : ¬ [10] <+: c :: t := fun h => hne (d := 10) rfl (List.cons_prefix_cons.1 h).1.symm
  obtain ⟨p, ps, hsplit⟩ := List.exists_cons_of_ne_nil (Text.splitOn_ne_nil [10] t)
  have hline := layLine_head? hw hc hb (hne (d := 9) rfl) p
  obtain ⟨line, hhead, hstart⟩ := Option.bind_eq_some_iff.1 hline
  refine join_head? [10] ?_
  rw [lay, Text.splitOn_cons_of_not_starts hstarts, hsplit, Text.consHead, List.flatMap_cons,
    List.head?_append, hhead]
  exact hstart

end KeyTrace.Wrap
