/-
The text of the pieces that a literal is cut into. Cooking it fails at no other
place than an escape that is out of range as a whole.
-/
import KeyTrace.Analysis.Reading
import KeyTrace.Proofs.Grammar.Sound
import KeyTrace.Proofs.Literal.Cook

namespace KeyTrace

/-- The part of a text from one position to another. -/
def Text.between (t : Text) (a b : Nat) : Text := (t.take b).drop a

namespace Text

variable {t : Text} {a b c : Nat}

theorem between_append (hab : a ≤ b) (hbc : b ≤ c) :
    t.between a c = t.between a b ++ t.between b c := by
  have h := List.take_append_drop b (t.take c)
  rw [List.take_take, Nat.min_eq_left hbc] at h
  rw [between, ← h, List.drop_append, between, between]
  congr 1
  rcases Nat.le_total b t.length with hb | hb
  · rw [List.length_take, Nat.min_eq_left hb, Nat.sub_eq_zero_of_le hab, List.drop_zero]
  · have hnil : (t.take c).drop b = [] := by
      rw [List.drop_eq_nil_iff, List.length_take]
      omega
    rw [hnil, List.drop_nil]

theorem between_cons (hab : a < b) (hb : b ≤ t.length) :
    t.between a b = t[a] :: t.between (a + 1) b := by
  rw [between, List.drop_eq_getElem_cons (by rw [List.length_take]; omega), List.getElem_take]
  rfl

@[simp] theorem between_self : t.between a a = [] := by
  rw [between, List.drop_eq_nil_iff, List.length_take]
  exact Nat.min_le_left _ _

/-- What is left of a part without its first and its last character. -/
theorem inner_between (hb : b ≤ t.length) :
    ((t.between a b).drop 1).dropLast = t.between (a + 1) (b - 1) := by
  rw [between, between, List.drop_drop, List.dropLast_eq_take, List.length_drop, List.length_take,
    Nat.min_eq_left hb, List.drop_take, List.drop_take, List.take_take]
  congr 1
  omega

theorem mem_between {x : CodePoint} (h : x ∈ t.between a b) :
    ∃ k, ∃ hk : k < t.length, a ≤ k ∧ k < b ∧ t[k] = x := by
  obtain ⟨k, hk, rfl⟩ := List.getElem_of_mem h
  rw [between, List.length_drop, List.length_take] at hk
  refine ⟨a + k, by omega, by omega, by omega, ?_⟩
  simp only [between, List.getElem_drop, List.getElem_take]

end Text

namespace Grammar

open Literal

/-- How a character is read: a byte that belongs to none is replaced. -/
def legible (c : CodePoint) : CodePoint := if c = brokenByte then Utf8.replacement else c

/-- The text of an input. -/
def Input.text (i : Input) : Text := i.chars.toList.map legible

theorem isHexDigit_legible (c : CodePoint) : isHexDigit (legible c) = isHexDigit c := by
  unfold legible
  split
  · next h =>
    subst h
    rfl
  · rfl

theorem legible_of_lt {c : CodePoint} (h : c < Utf8.replacement) : legible c = c :=
  if_neg (Nat.ne_of_lt (Nat.lt_trans h (by decide)))

theorem legible_ne {c d : CodePoint} (hd : d < Utf8.replacement) (h : c ≠ d) : legible c ≠ d := by
  unfold legible
  split
  · exact (Nat.ne_of_lt hd).symm
  · exact h

section Pieces

variable {i : Input} {p e : Nat}

@[simp] theorem length_text : i.text.length = i.chars.size := by
  rw [Input.text, List.length_map, Array.length_toList]

theorem getElem_text (hp : p < i.text.length) : i.text[p] = legible (i.char p) := by
  have hp' : p < i.chars.size := length_text ▸ hp
  simp only [Input.text, List.getElem_map, Array.getElem_toList, Input.char,
    Array.getD_eq_getD_getElem?, Array.getElem?_eq_getElem hp', Option.getD_some]

/-- What is behind the first character of an escape, by position. -/
structure IsTail (i : Input) (p e : Nat) : Prop where
  plain : ∀ k, p + 2 ≤ k → k < e → i.char k ≠ 92
  /-- After `u` there are digits, bare or in braces. -/
  digits : i.char (p + 1) = 117 →
    p + 2 < e ∧ (∀ k, p + 2 ≤ k → k < e → isHexDigit (i.char k) = true) ∨
    p + 4 < e ∧ i.char (p + 2) = 123 ∧ i.char (e - 1) = 125 ∧
      ∀ k, p + 3 ≤ k → k < e - 1 → isHexDigit (i.char k) = true

theorem isTail_unicode (h : i.unicodeEscapeEnd? p = some e) : IsTail i p e := by
  unfold Input.unicodeEscapeEnd? at h
  split at h
  · cases h
  · split at h
    · next hb =>
      dsimp only at h
      split at h
      · next hc =>
        cases h
        rw [Bool.and_eq_true, decide_eq_true_eq, beq_iff_eq] at hc
        have hhex : ∀ k, p + 3 ≤ k → k < i.skipWhile isHexDigit (p + 3) →
            isHexDigit (i.char k) = true := fun k hk hke => Input.test_of_skipWhile hk hke
        have hopen := beq_iff_eq.1 hb
        refine ⟨fun k hk hke => ?_, fun _ => .inr ⟨by omega, hopen, hc.2, hhex⟩⟩
        rcases Nat.eq_or_lt_of_le hk with rfl | hk
        · rw [hopen]
          decide
        · rcases Nat.eq_or_lt_of_le (Nat.le_of_lt_succ hke) with rfl | hke
          · rw [hc.2]
            decide
          · exact ne_of_isHexDigit (hhex k hk hke)
      · cases h
    · split at h
      · next hc =>
        cases h
        simp only [Bool.and_eq_true] at hc
        have hhex : ∀ k, p + 2 ≤ k → k < p + 6 → isHexDigit (i.char k) = true := by
          intro k hk hke
          obtain rfl | rfl | rfl | rfl : k = p + 2 ∨ k = p + 3 ∨ k = p + 4 ∨ k = p + 5 := by omega
          exacts [hc.1.1.1, hc.1.1.2, hc.1.2, hc.2]
        exact ⟨fun k hk hke => ne_of_isHexDigit (hhex k hk hke), fun _ => .inl ⟨by omega, hhex⟩⟩
      · cases h

/-- An escape goes on without a backslash. -/
theorem isTail_of_escapeEnd? (h : i.escapeEnd? p = some e) : IsTail i p e := by
  obtain ⟨-, ⟨-, h⟩ | ⟨hu, hend⟩⟩ := Input.escapeEnd?_cases h
  · exact isTail_unicode h
  have hne {k : Nat} (hd : Input.endsEscape (i.char k) = true) : i.char k ≠ 92 := by
    intro h92
    rw [h92] at hd
    cases hd
  refine ⟨fun k hk hke => ?_, fun hu' => absurd hu' hu⟩
  rcases hend with rfl | ⟨rfl, hd⟩ | ⟨rfl, hd, hd'⟩
  · omega
  · obtain rfl : k = p + 2 := by omega
    exact hne hd
  · obtain rfl | rfl : k = p + 2 ∨ k = p + 3 := by omega
    exacts [hne hd, hne hd']

/-- What is behind the first character of an escape. -/
structure IsTailText (c : CodePoint) (r : Text) : Prop where
  plain : ∀ x ∈ r, x ≠ 92
  /-- After `u` there are digits, bare or in braces. -/
  digits : c = 117 → r ≠ [] ∧ (∀ x ∈ r, isHexDigit x = true) ∨
    ∃ digits, digits ≠ [] ∧ (∀ x ∈ digits, isHexDigit x = true) ∧ r = 123 :: digits ++ [125]

/-- The text of an escape: a backslash, a character, and what belongs to it. -/
theorem escape_text (hp : i.char p = 92) (he : i.escapeEnd? p = some e) :
    ∃ c r, i.text.between p e = 92 :: c :: r ∧ IsTailText c r := by
  obtain ⟨hpe, hes⟩ := Input.escapeEnd?_le he
  rw [← length_text] at hes
  have htail := isTail_of_escapeEnd? he
  have h92 : (92 : CodePoint) < Utf8.replacement := by decide
  have hlegible {k : Nat} {x : CodePoint} (hk : i.char k = x) (hx : x < Utf8.replacement) :
      legible (i.char k) = x := hk ▸ legible_of_lt (hk.symm ▸ hx)
  refine ⟨legible (i.char (p + 1)), i.text.between (p + 2) e, ?_, fun x hx => ?_, fun hu => ?_⟩
  · rw [Text.between_cons (by omega) hes, Text.between_cons (by omega) hes, getElem_text, getElem_text,
      hlegible hp h92]
  · obtain ⟨k, hk, hpk, hke, rfl⟩ := Text.mem_between hx
    rw [getElem_text]
    exact legible_ne h92 (htail.plain k hpk hke)
  · have hu : i.char (p + 1) = 117 := by
      by_contra h
      exact legible_ne (by decide) h hu
    rcases htail.digits hu with ⟨hlt, h⟩ | ⟨hlt, hopen, hclose, h⟩
    · refine .inl ⟨by rw [Text.between_cons hlt hes]; nofun, fun x hx => ?_⟩
      obtain ⟨k, hk, hpk, hke, rfl⟩ := Text.mem_between hx
      rw [getElem_text, isHexDigit_legible]
      exact h k hpk hke
    · have hclose : i.text.between (e - 1) e = [125] := by
        rw [Text.between_cons (by omega) hes, getElem_text, hlegible hclose (by decide),
          Nat.sub_add_cancel (by omega), Text.between_self]
      refine .inr ⟨i.text.between (p + 3) (e - 1), ?_, fun x hx => ?_, ?_⟩
      · rw [Text.between_cons (by omega) (by omega)]
        nofun
      · obtain ⟨k, hk, hpk, hke, rfl⟩ := Text.mem_between hx
        rw [getElem_text, isHexDigit_legible]
        exact h k hpk hke
      · rw [Text.between_cons (by omega) hes, getElem_text, hlegible hopen (by decide),
          Text.between_append (by omega) (Nat.sub_le e 1), hclose]
        rfl

/-- Cooking goes on past an escape that is not out of range. -/
theorem cookable_escape_append {c : CodePoint} {r : Text} (h : IsTailText c r)
    (hv : isOutOfRange (92 :: c :: r) = false) (u : Text) :
    Cookable (92 :: c :: r ++ u) ↔ Cookable u := by
  have hbegin : ¬ BeginsOutOfRange (c :: r ++ u) := by
    intro hb
    obtain rfl := hb.head
    obtain ⟨digits, hd, hpast⟩ := beginsOutOfRange_iff.1 hb
    obtain ⟨-, hhex, after, hr⟩ := bracedDigits?_eq_some_iff.1 hd
    rcases h.digits rfl with ⟨hne, hex⟩ | ⟨digits', hne, hhex', rfl⟩
    · obtain ⟨x, r, rfl⟩ := List.exists_cons_of_ne_nil hne
      obtain ⟨rfl, -⟩ := List.cons.inj hr
      cases hex _ List.mem_cons_self
    · have hsame : bracedDigits? (123 :: digits' ++ [125] ++ u) = some digits' :=
        bracedDigits?_eq_some_iff.2 ⟨hne, hhex', u, by simp⟩
      have hwhole : bracedDigits? (123 :: digits' ++ [125]) = some digits' :=
        bracedDigits?_eq_some_iff.2 ⟨hne, hhex', [], rfl⟩
      obtain rfl := Option.some.inj (hsame.symm.trans hd)
      simp only [isOutOfRange, hwhole] at hv
      simp [hpast] at hv
  rw [List.cons_append, List.cons_append, cookable_escape, cookable_append h.plain]
  exact and_iff_right hbegin

theorem cookable_piece {n : Node} (hn : IsPiece i n)
    (hv : n.kind = .escapeSequence → isOutOfRange (i.text.between n.span.start n.span.stop) = false)
    (u : Text) : Cookable (i.text.between n.span.start n.span.stop ++ u) ↔ Cookable u := by
  rcases hn.cases with ⟨-, hplain⟩ | ⟨hk, hp, he⟩
  · refine cookable_append fun x hx => ?_
    obtain ⟨k, hk, hpk, hke, rfl⟩ := Text.mem_between hx
    rw [getElem_text]
    exact legible_ne (by decide) (hplain k hpk hke)
  · obtain ⟨c, r, ht, htail⟩ := escape_text hp he
    have hv := hv hk
    rw [ht] at hv ⊢
    exact cookable_escape_append htail hv u

/-- The pieces between two positions cook, whatever follows. -/
theorem cookable_covered {b : Nat} : ∀ {a : Nat} {ns : List Node}, Covers i a ns b →
    (∀ n ∈ ns, IsPiece i n) →
    (∀ n ∈ ns, n.kind = .escapeSequence →
      isOutOfRange (i.text.between n.span.start n.span.stop) = false) →
    Cookable (i.text.between a b)
  | a, [], h, _, _ => by
    rw [show a = b from h, Text.between_self]
    exact ⟨[], rfl⟩
  | a, n :: ns, h, hp, hv => by
    obtain ⟨rfl, -, hrest⟩ := h
    have hn := hp n List.mem_cons_self
    have hps := fun m hm => hp m (List.mem_cons_of_mem _ hm)
    have hle := (hrest.row fun m hm => (hps m hm).nonempty).1
    rw [Text.between_append (Nat.le_of_lt hn.nonempty) hle,
      cookable_piece hn (hv n List.mem_cons_self)]
    exact cookable_covered hrest hps fun m hm => hv m (List.mem_cons_of_mem _ hm)

end Pieces

end Grammar

end KeyTrace
