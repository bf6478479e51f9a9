/-
Byte offsets as character offsets.

One more byte at the end of a byte string makes for one more piece or for none: it begins a piece
of its own, or it belongs to one that has broken off in front of it (`grows_concat`). So the count
of characters never goes back and never leaves one out, whatever the bytes are, and at the end of
each character of a text it is the place of that character.
-/
import KeyTrace.Proofs.Text.Utf8
import KeyTrace.Syntax.Source

namespace KeyTrace

namespace Utf8

variable {bs : List UInt8} {ps qs : List Piece}

/-- There are as many pieces as before, or one more. -/
def Grows (ps qs : List Piece) : Prop := ps.length ≤ qs.length ∧ qs.length ≤ ps.length + 1

theorem Grows.cons (h : Grows ps qs) (p q : Piece) : Grows (p :: ps) (q :: qs) :=
  ⟨Nat.succ_le_succ h.1, Nat.succ_le_succ h.2⟩

theorem Grows.replace (p q : Piece) : Grows [p] [q] := ⟨Nat.le_refl 1, Nat.le_succ 1⟩

theorem length_pieces_singleton (b : UInt8) : (pieces [b]).length = 1 := by
  rw [pieces]
  split
  · rfl
  · split <;> rfl

theorem grows_singleton (b : UInt8) : Grows [] (pieces [b]) := by
  rw [Grows, length_pieces_singleton]
  exact ⟨Nat.zero_le 1, Nat.le_refl 1⟩

section Ends

variable {a a1 a2 lo hi : UInt8} {n : Nat} (ha : ¬ a < 0x80) (hl : lead a = some (n, lo, hi))
  (hin : ¬ (!(decide (lo ≤ a1) && decide (a1 ≤ hi))) = true) (b : UInt8)

include ha hl

/-- Where a character has broken off, one more byte goes on with it or is a piece of its own. -/
theorem grows_end₁ : Grows [⟨none, 1⟩] (pieces [a, b]) := by
  by_cases hout : (!(decide (lo ≤ b) && decide (b ≤ hi))) = true
  · rw [pieces_break₁ ha hl hout]
    exact (grows_singleton b).cons _ _
  by_cases hn : (n == 1) = true
  · rw [pieces_whole₂ ha hl hout [] hn]
    exact .replace _ _
  · rw [pieces_end₂ ha hl hout hn]
    exact .replace _ _

include hin

theorem grows_end₂ (hn : ¬ (n == 1) = true) : Grows [⟨none, 2⟩] (pieces [a, a1, b]) := by
  by_cases h2 : (!isContinuation b) = true
  · rw [pieces_break₂ ha hl hin [] hn h2]
    exact (grows_singleton b).cons _ _
  by_cases hn2 : (n == 2) = true
  · rw [pieces_whole₃ ha hl hin [] hn h2 hn2]
    exact .replace _ _
  · rw [pieces_end₃ ha hl hin hn h2 hn2]
    exact .replace _ _

theorem grows_end₃ (hn : ¬ (n == 1) = true) (h2 : ¬ (!isContinuation a2) = true)
    (hn2 : ¬ (n == 2) = true) : Grows [⟨none, 3⟩] (pieces [a, a1, a2, b]) := by
  by_cases h3 : (!isContinuation b) = true
  · rw [pieces_break₃ ha hl hin [] hn h2 hn2 h3]
    exact (grows_singleton b).cons _ _
  · rw [pieces_whole₄ ha hl hin [] hn h2 hn2 h3]
    exact .replace _ _

end Ends

/-- One more byte is a piece of its own, or goes with the last one. -/
theorem grows_concat (bs : List UInt8) (b : UInt8) : Grows (pieces bs) (pieces (bs ++ [b])) := by
  -- The byte matters where a piece has broken off; any other piece is what it was, and the byte
  -- comes to the rest.
  fun_induction pieces bs with
  | case1 => exact grows_singleton b
  | case2 a r ha ih =>
    rw [List.cons_append, pieces_single ha]
    exact ih.cons _ _
  | case3 a r ha hl ih =>
    rw [List.cons_append, pieces_stray ha hl]
    exact ih.cons _ _
  | case4 a ha n lo hi hl => exact grows_end₁ ha hl b
  | case5 a ha n lo hi hl a1 r1 hout ih =>
    rw [List.cons_append, List.cons_append, pieces_break₁ ha hl hout]
    exact ih.cons _ _
  | case6 a ha n lo hi hl a1 r1 hin hn ih =>
    rw [List.cons_append, List.cons_append, pieces_whole₂ ha hl hin _ hn]
    exact ih.cons _ _
  | case7 a ha n lo hi hl a1 hin hn => exact grows_end₂ ha hl hin b hn
  | case8 a ha n lo hi hl a1 hin hn a2 r2 h2 ih =>
    simp only [List.cons_append] at ih ⊢
    rw [pieces_break₂ ha hl hin _ hn h2]
    exact ih.cons _ _
  | case9 a ha n lo hi hl a1 hin hn a2 r2 h2 hn2 ih =>
    simp only [List.cons_append]
    rw [pieces_whole₃ ha hl hin _ hn h2 hn2]
    exact ih.cons _ _
  | case10 a ha n lo hi hl a1 hin hn a2 h2 hn2 => exact grows_end₃ ha hl hin b hn h2 hn2
  | case11 a ha n lo hi hl a1 hin hn a2 h2 hn2 a3 r3 h3 ih =>
    simp only [List.cons_append] at ih ⊢
    rw [pieces_break₃ ha hl hin _ hn h2 hn2 h3]
    exact ih.cons _ _
  | case12 a ha n lo hi hl a1 hin hn a2 h2 hn2 a3 r3 h3 ih =>
    simp only [List.cons_append]
    rw [pieces_whole₄ ha hl hin _ hn h2 hn2 h3]
    exact ih.cons _ _

theorem length_decode (bs : List UInt8) : (decode bs).length = (pieces bs).length := List.length_map _

theorem length_decode_ascii (h : ∀ b ∈ bs, b < 0x80) : (decode bs).length = bs.length := by
  rw [length_decode, pieces_ascii h, List.length_map]

theorem take_length_encode (t : Text) (i : Nat) :
    (encode t).take (encode (t.take i)).length = encode (t.take i) := by
  have hsplit : encode t = encode (t.take i) ++ encode (t.drop i) := by
    rw [encode, encode, encode, ← List.flatMap_append, List.take_append_drop]
  rw [hsplit, List.take_left]

end Utf8

namespace Source

open Utf8

variable {s : Source} {t : Text} {i k : Nat}

/-- Where every byte is a character, no byte before an offset needs to be decoded. -/
theorem length_decode_take_ascii (h : s.isAscii = true) (hk : k ≤ s.bytes.size) :
    (decode (s.bytes.toList.take k)).length = k := by
  have hascii : ∀ b ∈ s.bytes.toList.take k, b < 0x80 := fun b hb => by
    simpa using Array.all_eq_true'.1 h b (by simpa using List.mem_of_mem_take hb)
  rw [length_decode_ascii hascii, List.length_take, Array.length_toList, Nat.min_eq_left hk]

/-- An offset into a source is answered by the characters before it, counted or not. -/
theorem charOffset_eq (hk : k ≤ s.bytes.size) :
    s.charOffset k = (decode (s.bytes.toList.take k)).length := by
  unfold charOffset
  split
  · next h => exact (length_decode_take_ascii h hk).symm
  · rfl

theorem charOffset_grows (hk : k < s.bytes.size) :
    s.charOffset k ≤ s.charOffset (k + 1) ∧ s.charOffset (k + 1) ≤ s.charOffset k + 1 := by
  have hk' : k < s.bytes.toList.length := hk
  rw [charOffset_eq (Nat.le_of_lt hk), charOffset_eq hk, length_decode, length_decode,
    List.take_succ_eq_append_getElem hk']
  exact grows_concat _ _

theorem charOffset_encode (ht : Utf8.Encodable t) (hi : i ≤ t.length) :
    charOffset ⟨(encode t).toArray⟩ (encode (t.take i)).length = i := by
  have htake := take_length_encode t i
  have hle : (encode (t.take i)).length ≤ (encode t).length := by
    rw [← htake]
    exact List.length_take_le' _ _
  rw [charOffset_eq hle, htake, decode_encode fun c hc => ht c (List.mem_of_mem_take hc),
    List.length_take, Nat.min_eq_left hi]

theorem ofText?_of_encodable (ht : Utf8.Encodable t) : ofText? t = some ⟨(encode t).toArray⟩ := by
  have hany : t.any isSurrogate = false := List.any_eq_false.2 fun c hc => by simp [(ht c hc).2]
  rw [ofText?, encode?, hany]
  rfl

/-- **Byte offsets convert to character offsets exactly.** Behind the bytes of the first `i`
characters of a text the offset is `i`. In any bytes, UTF-8 or not, the count starts at nothing and
goes on by one character or none with every byte. Where all bytes are ASCII, the answer that needs
no decoding is the one that decoding gives. -/
theorem charOffset_exact :
    (∀ t, Utf8.Encodable t → ∃ s, ofText? t = some s ∧
      ∀ i ≤ t.length, s.charOffset (encode (t.take i)).length = i) ∧
    (∀ s : Source, s.charOffset 0 = 0 ∧ ∀ k < s.bytes.size,
      s.charOffset k ≤ s.charOffset (k + 1) ∧ s.charOffset (k + 1) ≤ s.charOffset k + 1) ∧
    ∀ s : Source, s.isAscii = true → ∀ k ≤ s.bytes.size,
      s.charOffset k = k ∧ (decode (s.bytes.toList.take k)).length = k := by
  refine ⟨fun t ht => ⟨_, ofText?_of_encodable ht, fun i hi => charOffset_encode ht hi⟩,
    fun s => ⟨?_, fun k hk => charOffset_grows hk⟩, fun s hs k hk => ?_⟩
  · rw [charOffset_eq (Nat.zero_le _)]
    rfl
  · have hdecode := length_decode_take_ascii hs hk
    exact ⟨(charOffset_eq hk).trans hdecode, hdecode⟩

/-- Characters of two, three and four bytes, a character that breaks off in front of a letter, and
letters alone. -/
theorem charOffset_exact_mixed :
    (∃ s, ofText? (text "é€😀x") = some s ∧ s.charOffset 9 = 3) ∧
    (let s : Source := ⟨#[0xE2, 0x82, 0x61]⟩
     s.charOffset 2 ≤ s.charOffset 3 ∧ s.charOffset 3 ≤ s.charOffset 2 + 1) ∧
    (⟨#[0x61, 0x62]⟩ : Source).charOffset 2 = 2 := by
  obtain ⟨htext, hbytes, hascii⟩ := charOffset_exact
  have hmixed : Utf8.Encodable (text "é€😀x") := by
    unfold Utf8.Encodable
    decide
  obtain ⟨s, hs, hchars⟩ := htext _ hmixed
  exact ⟨⟨s, hs, hchars 3 (by decide)⟩, (hbytes _).2 2 (by decide),
    (hascii _ (by simp [isAscii]) 2 (by decide)).1⟩

end Source
end KeyTrace
