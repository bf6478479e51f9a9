/-
UTF-8: what is encoded decodes to itself, and a stretch of bytes between two
characters decodes to the characters between them.
-/
import KeyTrace.Text.Utf8
import Mathlib.Algebra.Ring.Nat

namespace KeyTrace.Utf8

/-- How many bytes some pieces take. -/
def size (ps : List Piece) : Nat := (ps.map Piece.width).sum

/-- The piece at the start of a byte string that goes on. -/
structure Starts (bs : List UInt8) (p : Piece) : Prop where
  pos : 0 < p.width
  le : p.width ≤ bs.length
  /-- It is the same wherever the string breaks off behind it. -/
  take : ∀ k, pieces (bs.take (k + p.width)) = p :: pieces ((bs.drop p.width).take k)
  /-- An ASCII character takes one byte. -/
  short : ∀ c : Nat, p.point = some c → c < 0x80 → p.width = 1
  point : ∀ c : Nat, p.point = some c → c ≤ 0x10FFFF

/-- What a first byte says of the character that it belongs to: there is more in it than fits into
the bytes behind it, or the next byte is not one of the first; and it is a code point. -/
def Announces (b : Nat) : Option (Nat × UInt8 × UInt8) → Bool
  | none => true
  | some (n, lo, hi) => decide (hi.toNat ≤ 0xBF) &&
      (n == 1 && decide (2 ≤ b % 32) ||
        n == 2 && (decide (1 ≤ b % 16) || decide (0xA0 ≤ lo.toNat)) ||
        n == 3 && (decide (1 ≤ b % 8) || decide (0x90 ≤ lo.toNat)) && decide (0x80 ≤ lo.toNat) &&
          (decide (b % 8 ≤ 3) || decide (b % 8 ≤ 4) && decide (hi.toNat ≤ 0x8F)))

theorem announces_lead : ∀ b < 256, Announces b (lead (UInt8.ofNat b)) = true := by
  decide +kernel

section Lead

variable {b b1 b2 b3 lo hi : UInt8} {n : Nat}

@[simp] theorem pieces_nil : pieces [] = [] := rfl

attribute [local simp] pieces in
theorem pieces_single (hb : b < 0x80) (r : List UInt8) :
    pieces (b :: r) = ⟨some b.toNat, 1⟩ :: pieces r := by
  simp [hb]

theorem pieces_stray (hb : ¬ b < 0x80) (hl : lead b = none) (r : List UInt8) :
    pieces (b :: r) = ⟨none, 1⟩ :: pieces r := by
  rw [pieces.eq_2 b, if_neg hb, hl]

section Equations

variable (hb : ¬ b < 0x80) (hl : lead b = some (n, lo, hi))
  (hout : (!(decide (lo ≤ b1) && decide (b1 ≤ hi))) = true)
  (hin : ¬ (!(decide (lo ≤ b1) && decide (b1 ≤ hi))) = true)
  (r : List UInt8)

include hb hl

theorem pieces_end₁ : pieces [b] = [⟨none, 1⟩] := by
  rw [pieces.eq_2 b, if_neg hb, hl]

include hout in
theorem pieces_break₁ : pieces (b :: b1 :: r) = ⟨none, 1⟩ :: pieces (b1 :: r) := by
  rw [pieces.eq_2 b, if_neg hb, hl]
  exact if_pos hout

include hin

theorem pieces_whole₂ (hn : (n == 1) = true) :
    pieces (b :: b1 :: r) = ⟨some (b.toNat % 32 * 64 + payload b1), 2⟩ :: pieces r := by
  rw [pieces.eq_2 b, if_neg hb, hl]
  exact (if_neg hin).trans (if_pos hn)

variable (hn : ¬ (n == 1) = true)

include hn

theorem pieces_end₂ : pieces [b, b1] = [⟨none, 2⟩] := by
  rw [pieces.eq_2 b, if_neg hb, hl]
  exact (if_neg hin).trans (if_neg hn)

theorem pieces_break₂ (h2 : (!isContinuation b2) = true) :
    pieces (b :: b1 :: b2 :: r) = ⟨none, 2⟩ :: pieces (b2 :: r) := by
  rw [pieces.eq_2 b, if_neg hb, hl]
  exact (if_neg hin).trans ((if_neg hn).trans (if_pos h2))

variable (h2 : ¬ (!isContinuation b2) = true)

include h2

theorem pieces_whole₃ (hn2 : (n == 2) = true) :
    pieces (b :: b1 :: b2 :: r) =
      ⟨some (b.toNat % 16 * 4096 + payload b1 * 64 + payload b2), 3⟩ :: pieces r := by
  rw [pieces.eq_2 b, if_neg hb, hl]
  exact (if_neg hin).trans ((if_neg hn).trans ((if_neg h2).trans (if_pos hn2)))

variable (hn2 : ¬ (n == 2) = true)

include hn2

theorem pieces_end₃ : pieces [b, b1, b2] = [⟨none, 3⟩] := by
  rw [pieces.eq_2 b, if_neg hb, hl]
  exact (if_neg hin).trans ((if_neg hn).trans ((if_neg h2).trans (if_neg hn2)))

theorem pieces_break₃ (h3 : (!isContinuation b3) = true) :
    pieces (b :: b1 :: b2 :: b3 :: r) = ⟨none, 3⟩ :: pieces (b3 :: r) := by
  rw [pieces.eq_2 b, if_neg hb, hl]
  exact (if_neg hin).trans ((if_neg hn).trans ((if_neg h2).trans ((if_neg hn2).trans (if_pos h3))))

theorem pieces_whole₄ (h3 : ¬ (!isContinuation b3) = true) :
    pieces (b :: b1 :: b2 :: b3 :: r) =
      ⟨some (b.toNat % 8 * 262144 + payload b1 * 4096 + payload b2 * 64 + payload b3), 4⟩ ::
        pieces r := by
  rw [pieces.eq_2 b, if_neg hb, hl]
  exact (if_neg hin).trans ((if_neg hn).trans ((if_neg h2).trans ((if_neg hn2).trans (if_neg h3))))

end Equations

theorem announces_of_lead (hl : lead b = some (n, lo, hi)) :
    hi.toNat ≤ 0xBF ∧ ((n = 1 ∧ 2 ≤ b.toNat % 32 ∨
      n = 2 ∧ (1 ≤ b.toNat % 16 ∨ 0xA0 ≤ lo.toNat)) ∨
      ((n = 3 ∧ (1 ≤ b.toNat % 8 ∨ 0x90 ≤ lo.toNat)) ∧ 0x80 ≤ lo.toNat) ∧
        (b.toNat % 8 ≤ 3 ∨ b.toNat % 8 ≤ 4 ∧ hi.toNat ≤ 0x8F)) := by
  have h := announces_lead b.toNat b.toNat_lt
  rw [UInt8.ofNat_toNat, hl] at h
  simpa only [Announces, Bool.and_eq_true, Bool.or_eq_true, beq_iff_eq, decide_eq_true_eq] using h

/-- The byte behind the first one is in the range that the first one announces. -/
theorem toNat_of_second (hin : ¬ (!(decide (lo ≤ b1) && decide (b1 ≤ hi))) = true) :
    lo.toNat ≤ b1.toNat ∧ b1.toNat ≤ hi.toNat := by
  simpa [UInt8.le_iff_toNat_le] using hin

/-- A character of two bytes takes no less than two, and is a code point. -/
theorem point_two (hl : lead b = some (n, lo, hi)) (hn : (n == 1) = true) :
    0x80 ≤ b.toNat % 32 * 64 + payload b1 ∧ b.toNat % 32 * 64 + payload b1 ≤ 0x10FFFF := by
  have h := announces_of_lead hl
  have hn := beq_iff_eq.1 hn
  unfold payload
  omega

theorem point_three (hl : lead b = some (n, lo, hi))
    (hin : ¬ (!(decide (lo ≤ b1) && decide (b1 ≤ hi))) = true) (hn : (n == 2) = true) :
    0x80 ≤ b.toNat % 16 * 4096 + payload b1 * 64 + payload b2 ∧
      b.toNat % 16 * 4096 + payload b1 * 64 + payload b2 ≤ 0x10FFFF := by
  have h := announces_of_lead hl
  have hsecond := toNat_of_second hin
  have hn := beq_iff_eq.1 hn
  unfold payload
  omega

theorem point_four (hl : lead b = some (n, lo, hi))
    (hin : ¬ (!(decide (lo ≤ b1) && decide (b1 ≤ hi))) = true) (hn : ¬ (n == 1) = true)
    (hn2 : ¬ (n == 2) = true) :
    0x80 ≤ b.toNat % 8 * 262144 + payload b1 * 4096 + payload b2 * 64 + payload b3 ∧
      b.toNat % 8 * 262144 + payload b1 * 4096 + payload b2 * 64 + payload b3 ≤ 0x10FFFF := by
  have h := announces_of_lead hl
  have hsecond := toNat_of_second hin
  rw [beq_iff_eq] at hn hn2
  unfold payload
  omega

end Lead

section Starts

variable {w r : List UInt8} {c : Nat}

/-- A character that is read from its own bytes alone. -/
theorem Starts.of_whole (hw : w ≠ []) (hlow : c < 0x80 → w.length = 1) (hc : c ≤ 0x10FFFF)
    (h : ∀ r, pieces (w ++ r) = ⟨some c, w.length⟩ :: pieces r) :
    Starts (w ++ r) ⟨some c, w.length⟩ where
  pos := List.length_pos_iff.2 hw
  le := by simp
  take k := by
    dsimp only
    rw [Nat.add_comm, List.take_length_add_append, List.drop_left, h]
  short _ hp := Option.some.inj hp ▸ hlow
  point _ hp := Option.some.inj hp ▸ hc

theorem Starts.of_long (hw : w ≠ []) (hc : 0x80 ≤ c ∧ c ≤ 0x10FFFF)
    (h : ∀ r, pieces (w ++ r) = ⟨some c, w.length⟩ :: pieces r) :
    Starts (w ++ r) ⟨some c, w.length⟩ :=
  of_whole hw (fun hlt => absurd hc.1 (Nat.not_le.2 hlt)) hc.2 h

/-- The start of a character that breaks off at the end or in front of the next byte. -/
theorem Starts.of_broken (hw : w ≠ []) (hend : pieces w = [⟨none, w.length⟩])
    (hnext : ∀ b ∈ r.head?, ∀ r, pieces (w ++ b :: r) = ⟨none, w.length⟩ :: pieces (b :: r)) :
    Starts (w ++ r) ⟨none, w.length⟩ where
  pos := List.length_pos_iff.2 hw
  le := by simp
  take k := by
    dsimp only
    rw [Nat.add_comm, List.take_length_add_append, List.drop_left]
    cases k with
    | zero => simp [hend]
    | succ k =>
      cases r with
      | nil => simp [hend]
      | cons b r => exact hnext b rfl _
  short := nofun
  point := nofun

theorem Starts.of_end (hw : w ≠ []) (hend : pieces w = [⟨none, w.length⟩]) : Starts w ⟨none, w.length⟩ := by
  have h := of_broken (r := []) hw hend nofun
  rwa [List.append_nil] at h

theorem Starts.of_break {b : UInt8} (hw : w ≠ []) (hend : pieces w = [⟨none, w.length⟩])
    (hnext : ∀ r, pieces (w ++ b :: r) = ⟨none, w.length⟩ :: pieces (b :: r)) :
    Starts (w ++ b :: r) ⟨none, w.length⟩ :=
  of_broken hw hend fun _ h => Option.some.inj h ▸ hnext

/-- Every byte string that is not empty starts with a piece. -/
theorem exists_starts {bs : List UInt8} (hbs : bs ≠ []) : ∃ p, Starts bs p := by
  fun_cases pieces bs with
  | case1 => exact absurd rfl hbs
  | case2 b r hb =>
    have hc : b.toNat < 0x80 := UInt8.lt_iff_toNat_lt.1 hb
    exact ⟨_, .of_whole (w := [b]) (c := b.toNat) nofun (fun _ => rfl) (by omega) fun r =>
      pieces_single hb r⟩
  | case3 b r hb hl =>
    exact ⟨_, .of_broken (w := [b]) nofun (pieces_stray hb hl []) fun _ _ _ => pieces_stray hb hl _⟩
  | case4 b hb n lo hi hl => exact ⟨_, .of_end (w := [b]) nofun (pieces_end₁ hb hl)⟩
  | case5 b hb n lo hi hl b1 r hout =>
    exact ⟨_, .of_break (w := [b]) nofun (pieces_end₁ hb hl) (pieces_break₁ hb hl hout)⟩
  | case6 b hb n lo hi hl b1 r hin hn =>
    exact ⟨_, .of_long (w := [b, b1]) nofun (point_two hl hn) fun r =>
      pieces_whole₂ hb hl hin r hn⟩
  | case7 b hb n lo hi hl b1 hin hn =>
    exact ⟨_, .of_end (w := [b, b1]) nofun (pieces_end₂ hb hl hin hn)⟩
  | case8 b hb n lo hi hl b1 hin hn b2 r h2 =>
    exact ⟨_, .of_break (w := [b, b1]) nofun (pieces_end₂ hb hl hin hn) fun r =>
      pieces_break₂ hb hl hin r hn h2⟩
  | case9 b hb n lo hi hl b1 hin hn b2 r h2 hn2 =>
    exact ⟨_, .of_long (w := [b, b1, b2]) nofun (point_three hl hin hn2) fun r =>
      pieces_whole₃ hb hl hin r hn h2 hn2⟩
  | case10 b hb n lo hi hl b1 hin hn b2 h2 hn2 =>
    exact ⟨_, .of_end (w := [b, b1, b2]) nofun (pieces_end₃ hb hl hin hn h2 hn2)⟩
  | case11 b hb n lo hi hl b1 hin hn b2 h2 hn2 b3 r h3 =>
    exact ⟨_, .of_break (w := [b, b1, b2]) nofun (pieces_end₃ hb hl hin hn h2 hn2) fun r =>
      pieces_break₃ hb hl hin r hn h2 hn2 h3⟩
  | case12 b hb n lo hi hl b1 hin hn b2 h2 hn2 b3 r h3 =>
    exact ⟨_, .of_long (w := [b, b1, b2, b3]) nofun (point_four hl hin hn hn2) fun r =>
      pieces_whole₄ hb hl hin r hn h2 hn2 h3⟩
end Starts

variable {bs : List UInt8} {p : Piece} {a b n : Nat}

theorem Starts.pieces_eq (h : Starts bs p) : pieces bs = p :: pieces (bs.drop p.width) := by
  have := h.take bs.length
  rwa [List.take_of_length_le (Nat.le_add_right _ _),
    List.take_of_length_le (List.length_drop ▸ Nat.sub_le _ _)] at this

@[simp] theorem size_nil : size [] = 0 := rfl

@[simp] theorem size_cons (p : Piece) (ps : List Piece) : size (p :: ps) = p.width + size ps := rfl

/-- Behind the first few pieces of a byte string are the others. -/
theorem pieces_drop : ∀ (n : Nat) (bs : List UInt8),
    pieces (bs.drop (size ((pieces bs).take n))) = (pieces bs).drop n
  | 0, bs => by simp
  | n + 1, [] => by simp
  | n + 1, b :: r => by
    obtain ⟨p, hp⟩ := exists_starts (List.cons_ne_nil b r)
    rw [hp.pieces_eq, List.take_succ_cons, List.drop_succ_cons, size_cons, ← pieces_drop n,
      List.drop_drop]

/-- Up to the end of a few of its pieces, a byte string has these pieces. -/
theorem pieces_take : ∀ (n : Nat) (bs : List UInt8),
    pieces (bs.take (size ((pieces bs).take n))) = (pieces bs).take n
  | 0, bs => by simp
  | n + 1, [] => by simp
  | n + 1, b :: r => by
    obtain ⟨p, hp⟩ := exists_starts (List.cons_ne_nil b r)
    rw [hp.pieces_eq, List.take_succ_cons, size_cons, Nat.add_comm, hp.take, pieces_take n]

/-- Every piece of a byte string is at the start of another. -/
theorem starts_of_mem : ∀ (bs : List UInt8), ∀ q ∈ pieces bs, ∃ bs', Starts bs' q
  | [], q, hq => by cases hq
  | b :: r, q, hq => by
    obtain ⟨p, hp⟩ := exists_starts (List.cons_ne_nil b r)
    have := hp.pos
    rw [hp.pieces_eq, List.mem_cons] at hq
    rcases hq with rfl | hq
    · exact ⟨_, hp⟩
    · exact starts_of_mem ((b :: r).drop p.width) q hq
termination_by bs => bs.length
decreasing_by simp only [List.length_drop, List.length_cons]; omega

theorem width_pos {q : Piece} (hq : q ∈ pieces bs) : 0 < q.width :=
  (starts_of_mem bs q hq).elim fun _ h => h.pos

theorem width_eq_one {q : Piece} (hq : q ∈ pieces bs) {c : Nat} (hc : q.point = some c)
    (hlt : c < 0x80) : q.width = 1 :=
  (starts_of_mem bs q hq).elim fun _ h => h.short c hc hlt

theorem point_le {q : Piece} (hq : q ∈ pieces bs) {c : Nat} (hc : q.point = some c) :
    c ≤ 0x10FFFF :=
  (starts_of_mem bs q hq).elim fun _ h => h.point c hc

/-- A byte string that starts with an ASCII character starts with its byte. -/
theorem head?_of_pieces {p : Piece} {ps : List Piece} {c : Nat} (h : pieces bs = p :: ps)
    (hc : p.point = some c) (hlt : c < 0x80) : bs.head? = some (UInt8.ofNat c) := by
  cases bs with
  | nil => cases h
  | cons b r =>
    by_cases hb : b < 0x80
    · rw [pieces_single hb] at h
      cases h
      cases hc
      rw [UInt8.ofNat_toNat]
      rfl
    · -- the character takes one byte, but alone this byte is none
      obtain ⟨q, hq⟩ := exists_starts (List.cons_ne_nil b r)
      obtain ⟨rfl, -⟩ := List.cons.inj (hq.pieces_eq.symm.trans h)
      have hone := hq.take 0
      rw [hq.short c hc hlt, Nat.zero_add, List.take_succ_cons, List.take_zero, List.take_zero] at hone
      have hnone : pieces [b] = [⟨none, 1⟩] := by
        cases hl : lead b with
        | none => exact pieces_stray hb hl []
        | some l => exact pieces_end₁ hb hl
      rw [hnone] at hone
      rw [← (List.cons.inj hone).1] at hc
      cases hc

/-- The end of the first `n` pieces of a byte string. -/
def offset (bs : List UInt8) (n : Nat) : Nat := size ((pieces bs).take n)

theorem size_append (ps qs : List Piece) : size (ps ++ qs) = size ps + size qs := by
  simp [size]

theorem offset_le (hab : a ≤ b) : offset bs a ≤ offset bs b := by
  have h := List.take_append_drop a ((pieces bs).take b)
  rw [List.take_take, Nat.min_eq_left hab] at h
  rw [offset, offset, ← h, size_append]
  exact Nat.le_add_right _ _

theorem offset_succ (ha : a < (pieces bs).length) :
    offset bs (a + 1) = offset bs a + (pieces bs)[a].width := by
  rw [offset, offset, List.take_succ_eq_append_getElem ha, size_append]
  rfl

theorem offset_lt (hab : a < b) (hb : b ≤ (pieces bs).length) : offset bs a < offset bs b := by
  have ha : a < (pieces bs).length := Nat.lt_of_lt_of_le hab hb
  have hnext := offset_succ ha
  have := width_pos (List.getElem_mem ha)
  have : offset bs (a + 1) ≤ offset bs b := offset_le hab
  omega

/-- The bytes between two characters decode to what is between them. -/
theorem decode_between (hab : a ≤ b) :
    decode ((bs.take (offset bs b)).drop (offset bs a)) = ((decode bs).take b).drop a := by
  have hb := pieces_take b bs
  have ha := pieces_drop a (bs.take (offset bs b))
  have hoffset : size ((pieces (bs.take (offset bs b))).take a) = offset bs a := by
    rw [offset, hb, List.take_take, Nat.min_eq_left hab, offset]
  rw [hoffset] at ha
  rw [decode, ha, offset, hb, decode, List.map_drop, List.map_take]

/-- As many characters lie before the end of the first `n` as there are. -/
theorem length_decode_take (hn : n ≤ (pieces bs).length) :
    (decode (bs.take (offset bs n))).length = n := by
  rw [decode, List.length_map, offset, pieces_take, List.length_take, Nat.min_eq_left hn]

/-- A byte string all of whose bytes are characters has a piece for each of them. -/
theorem pieces_ascii : ∀ {bs : List UInt8}, (∀ b ∈ bs, b < 0x80) →
    pieces bs = bs.map fun b => ⟨some b.toNat, 1⟩
  | [], _ => rfl
  | b :: r, h => by
    rw [pieces_single (h b List.mem_cons_self), List.map_cons,
      pieces_ascii fun b hb => h b (List.mem_cons_of_mem _ hb)]

theorem size_eq_length : ∀ {ps : List Piece}, (∀ p ∈ ps, p.width = 1) → size ps = ps.length
  | [], _ => rfl
  | p :: ps, h => by
    rw [size_cons, h p List.mem_cons_self, size_eq_length fun q hq => h q (List.mem_cons_of_mem _ hq),
      List.length_cons, Nat.add_comm]

theorem offset_ascii (h : ∀ b ∈ bs, b < 0x80) (hn : n ≤ (pieces bs).length) : offset bs n = n := by
  rw [offset, size_eq_length, List.length_take, Nat.min_eq_left hn]
  intro p hp
  rw [pieces_ascii h] at hp
  obtain ⟨_, -, rfl⟩ := List.mem_map.1 (List.mem_of_mem_take hp)
  rfl

/-! ## Encoding -/

theorem lead_two : ∀ k < 32, 2 ≤ k →
    lead (UInt8.ofNat (0xC0 + k)) = some (1, UInt8.ofNat 0x80, UInt8.ofNat 0xBF) := by
  decide

theorem lead_three : ∀ k < 16, lead (UInt8.ofNat (0xE0 + k)) =
    some (2, UInt8.ofNat (if k = 0 then 0xA0 else 0x80), UInt8.ofNat (if k = 13 then 0x9F else 0xBF)) := by
  decide

theorem lead_four : ∀ k < 5, lead (UInt8.ofNat (0xF0 + k)) =
    some (3, UInt8.ofNat (if k = 0 then 0x90 else 0x80), UInt8.ofNat (if k = 4 then 0x8F else 0xBF)) := by
  decide

theorem isContinuation_ofNat : ∀ k < 64, isContinuation (UInt8.ofNat (0x80 + k)) = true := by
  decide

theorem payload_ofNat : ∀ k < 64, payload (UInt8.ofNat (0x80 + k)) = k := by
  decide

theorem toNat_ofNat {n : Nat} (hn : n < 256) : (UInt8.ofNat n).toNat = n :=
  UInt8.toNat_ofNat_of_lt' hn

theorem not_ascii {n : Nat} (hn : 0x80 ≤ n) (hn' : n < 256) : ¬ UInt8.ofNat n < 0x80 := fun h => by
  have := UInt8.lt_iff_toNat_lt.1 h
  rw [toNat_ofNat hn'] at this
  exact absurd hn (Nat.not_le.2 this)

/-- The byte after the first of a character is in the range that the first announces. -/
theorem announced {lo hi n : Nat} (hl : lo ≤ n) (hh : n ≤ hi) (hi' : hi < 256) :
    ¬ (!(decide (UInt8.ofNat lo ≤ UInt8.ofNat n) &&
      decide (UInt8.ofNat n ≤ UInt8.ofNat hi))) = true := by
  have hlo : UInt8.ofNat lo ≤ UInt8.ofNat n := UInt8.le_iff_toNat_le.2 (by
    rwa [toNat_ofNat (by omega), toNat_ofNat (by omega)])
  have hhi : UInt8.ofNat n ≤ UInt8.ofNat hi := UInt8.le_iff_toNat_le.2 (by
    rwa [toNat_ofNat (by omega), toNat_ofNat (by omega)])
  rw [decide_eq_true hlo, decide_eq_true hhi]
  nofun

section Encoded

variable {j k l m : Nat}

theorem pieces_two (hk : 2 ≤ k) (hk' : k < 32) (hj : j < 64) (r : List UInt8) :
    pieces (UInt8.ofNat (0xC0 + k) :: UInt8.ofNat (0x80 + j) :: r) =
      ⟨some (k * 64 + j), 2⟩ :: pieces r := by
  have hsecond := announced (n := 0x80 + j) (Nat.le_add_right 0x80 j) (by omega) (by decide : 0xBF < 256)
  rw [pieces_whole₂ (not_ascii (by omega) (by omega)) (lead_two k hk' hk) hsecond r rfl,
    payload_ofNat j hj, toNat_ofNat (by omega), show (0xC0 + k) % 32 = k by omega]

theorem pieces_three (hk : k < 16) (hj : j < 64) (hl : l < 64) (h0 : k = 0 → 32 ≤ j)
    (hd : k = 13 → j < 32) (r : List UInt8) :
    pieces (UInt8.ofNat (0xE0 + k) :: UInt8.ofNat (0x80 + j) :: UInt8.ofNat (0x80 + l) :: r) =
      ⟨some (k * 4096 + j * 64 + l), 3⟩ :: pieces r := by
  have hlo : (if k = 0 then 0xA0 else 0x80) ≤ 0x80 + j := by split <;> omega
  have hhi : 0x80 + j ≤ if k = 13 then 0x9F else 0xBF := by split <;> omega
  have hsecond := announced hlo hhi (by split <;> decide)
  rw [pieces_whole₃ (not_ascii (by omega) (by omega)) (lead_three k hk) hsecond r (by decide)
    (by rw [isContinuation_ofNat l hl]; decide) rfl, payload_ofNat j hj, payload_ofNat l hl,
    toNat_ofNat (by omega), show (0xE0 + k) % 16 = k by omega]

theorem pieces_four (hk : k < 5) (hj : j < 64) (hl : l < 64) (hm : m < 64) (h0 : k = 0 → 16 ≤ j)
    (hd : k = 4 → j < 16) (r : List UInt8) :
    pieces (UInt8.ofNat (0xF0 + k) :: UInt8.ofNat (0x80 + j) :: UInt8.ofNat (0x80 + l) ::
        UInt8.ofNat (0x80 + m) :: r) =
      ⟨some (k * 262144 + j * 4096 + l * 64 + m), 4⟩ :: pieces r := by
  have hlo : (if k = 0 then 0x90 else 0x80) ≤ 0x80 + j := by split <;> omega
  have hhi : 0x80 + j ≤ if k = 4 then 0x8F else 0xBF := by split <;> omega
  have hsecond := announced hlo hhi (by split <;> decide)
  rw [pieces_whole₄ (not_ascii (by omega) (by omega)) (lead_four k hk) hsecond r (by decide)
    (by rw [isContinuation_ofNat l hl]; decide) (by decide)
    (by rw [isContinuation_ofNat m hm]; decide), payload_ofNat j hj, payload_ofNat l hl,
    payload_ofNat m hm, toNat_ofNat (by omega), show (0xF0 + k) % 8 = k by omega]

end Encoded

/-- A text that has an encoded form: its characters are code points other than surrogates. -/
def Encodable (t : Text) : Prop := ∀ c ∈ t, c ≤ maxCodePoint ∧ isSurrogate c = false

/-- The first character of an encoded text is the one that has been encoded first. -/
theorem pieces_encodePoint {c : Nat} (hc : c ≤ maxCodePoint) (hs : isSurrogate c = false)
    (r : List UInt8) :
    pieces (encodePoint c ++ r) = ⟨some c, (encodePoint c).length⟩ :: pieces r := by
  have hs : c < 0xD800 ∨ 0xDFFF < c := by
    rwa [isSurrogate, Bool.and_eq_false_iff, decide_eq_false_iff_not, decide_eq_false_iff_not,
      Nat.not_le, Nat.not_le] at hs
  unfold maxCodePoint at hc
  have hmod : ∀ n : Nat, n % 64 < 64 := fun n => Nat.mod_lt n (by decide)
  unfold encodePoint
  by_cases h1 : c < 0x80
  · have hlt : UInt8.ofNat c < 0x80 := UInt8.lt_iff_toNat_lt.2 (by rwa [toNat_ofNat (by omega)])
    rw [if_pos h1, List.singleton_append, pieces_single hlt, toNat_ofNat (by omega)]
    rfl
  by_cases h2 : c < 0x800
  · rw [if_neg h1, if_pos h2]
    refine (pieces_two (k := c / 64) (by omega) (by omega) (hmod _) r).trans ?_
    rw [show c / 64 * 64 + c % 64 = c by omega]
    rfl
  by_cases h3 : c < 0x10000
  · rw [if_neg h1, if_neg h2, if_pos h3]
    refine (pieces_three (k := c / 4096) (by omega) (hmod _) (hmod _) (by omega) (by omega) r).trans ?_
    rw [show c / 4096 * 4096 + c / 64 % 64 * 64 + c % 64 = c by omega]
    rfl
  · rw [if_neg h1, if_neg h2, if_neg h3]
    refine (pieces_four (k := c / 262144) (by omega) (hmod _) (hmod _) (hmod _) (by omega) (by omega)
      r).trans ?_
    rw [show c / 262144 * 262144 + c / 4096 % 64 * 4096 + c / 64 % 64 * 64 + c % 64 = c by omega]
    rfl

/-- The characters of an encoded text are those that have been encoded. -/
theorem pieces_encode : ∀ {t : Text}, Encodable t →
    pieces (encode t) = t.map fun c => ⟨some c, (encodePoint c).length⟩
  | [], _ => rfl
  | c :: t, h => by
    have hc := h c List.mem_cons_self
    rw [encode, List.flatMap_cons, pieces_encodePoint hc.1 hc.2, List.map_cons]
    exact congrArg _ (pieces_encode fun d hd => h d (List.mem_cons_of_mem _ hd))

/-- What is encoded decodes to itself. -/
theorem decode_encode {t : Text} (h : Encodable t) : decode (encode t) = t := by
  rw [decode, pieces_encode h, List.map_map]
  exact List.map_id _

end KeyTrace.Utf8
