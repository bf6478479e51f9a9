/-
The string value of a quoted literal, and what its text is cooked to.

`StringCharacters` is the grammar of what may stand between the quotes, with the value
that it has in UTF-16 units: single characters after a backslash, hexadecimal and
octal numbers, code points in braces, and line breaks that are passed over. Cooking
comes to the value of every text of the grammar unless an octal escape that begins
with 4 to 7 has a third octal digit behind it, which is not its own and which cooking
takes in (`cook_units_iff`).
-/
import KeyTrace.Output.Json
import KeyTrace.Proofs.Literal.Cook
import Mathlib.Algebra.Ring.Nat
import Mathlib.Data.List.Induction

namespace KeyTrace.Literal

/-- The UTF-16 units of a text. -/
def codeUnits (t : Text) : List Nat := t.flatMap Json.units

theorem codeUnits_append (t u : Text) : codeUnits (t ++ u) = codeUnits t ++ codeUnits u :=
  List.flatMap_append

theorem codeUnits_cons (c : CodePoint) (t : Text) : codeUnits (c :: t) = Json.units c ++ codeUnits t :=
  List.flatMap_cons

theorem codeUnits_singleton_of_lt {c : CodePoint} (h : c < 0x10000) : codeUnits [c] = [c] := by
  rw [codeUnits, List.flatMap_singleton, Json.units, if_pos h]

section Grammar

/-- The characters that have a meaning after a backslash, and their meanings. -/
def singleEscapes : List (CodePoint × Nat) :=
  [(39, 0x27), (34, 0x22), (92, 0x5c), (cp 'b', 0x08), (cp 'f', 0x0c), (cp 'n', 0x0a),
    (cp 'r', 0x0d), (cp 't', 0x09), (cp 'v', 0x0b)]

/-- The characters that do not stand for themselves after a backslash, unless one means itself. -/
def isEscapeCharacter (c : CodePoint) : Bool :=
  singleEscapes.any (·.1 == c) || isDigit c || c == cp 'x' || c == cp 'u'

/-- The text goes on with a character of some sort. -/
def GoesOn (p : CodePoint → Bool) (t : Text) : Prop := ∃ c r, t = c :: r ∧ p c = true

/-- What a backslash and some characters behind it stand for, in front of the rest of a text. -/
inductive EscapeSequence (rest : Text) : Text → List Nat → Prop where
  | single {c : CodePoint} {v : Nat} (hc : (c, v) ∈ singleEscapes) : EscapeSequence rest [c] [v]
  /-- Any other character stands for itself. -/
  | itself {c : CodePoint} (hc : isEscapeCharacter c = false) (hl : isLineBreak c = false) :
      EscapeSequence rest [c] (Json.units c)
  | null (hr : ¬ GoesOn isDigit rest) : EscapeSequence rest [48] [0]
  /-- Eight and nine are no octal digits. -/
  | nullBefore (hr : GoesOn (fun c => c == 56 || c == 57) rest) : EscapeSequence rest [48] [0]
  | octal {c : CodePoint} (hc : isOctalDigit c = true) (h0 : c ≠ 48) (hr : ¬ GoesOn isOctalDigit rest) :
      EscapeSequence rest [c] [ofDigits 8 [c]]
  | lowOctals {c d : CodePoint} (hc : isOctalDigit c = true) (hlow : c ≤ 51)
      (hd : isOctalDigit d = true) (hr : ¬ GoesOn isOctalDigit rest) :
      EscapeSequence rest [c, d] [ofDigits 8 [c, d]]
  /-- Behind 4 to 7 there is one more octal digit at most. -/
  | highOctals {c d : CodePoint} (hc : isOctalDigit c = true) (hhigh : 52 ≤ c)
      (hd : isOctalDigit d = true) : EscapeSequence rest [c, d] [ofDigits 8 [c, d]]
  | threeOctals {c d e : CodePoint} (hc : isOctalDigit c = true) (hlow : c ≤ 51)
      (hd : isOctalDigit d = true) (he : isOctalDigit e = true) :
      EscapeSequence rest [c, d, e] [ofDigits 8 [c, d, e]]
  | noOctal {c : CodePoint} (hc : c = 56 ∨ c = 57) : EscapeSequence rest [c] [c]
  | hex {digits : Text} (hlen : digits.length = 2) (hd : ∀ d ∈ digits, isHexDigit d = true) :
      EscapeSequence rest (cp 'x' :: digits) [ofDigits 16 digits]
  | unit {digits : Text} (hlen : digits.length = 4) (hd : ∀ d ∈ digits, isHexDigit d = true) :
      EscapeSequence rest (cp 'u' :: digits) [ofDigits 16 digits]
  | codePoint {digits : Text} (hne : digits ≠ []) (hd : ∀ d ∈ digits, isHexDigit d = true)
      (hle : ofDigits 16 digits ≤ maxCodePoint) :
      EscapeSequence rest (cp 'u' :: 123 :: digits ++ [125]) (Json.units (ofDigits 16 digits))

/-- What ends a line, in front of the rest of a text. -/
inductive LineTerminatorSequence (rest : Text) : Text → Prop where
  | lf : LineTerminatorSequence rest [10]
  | cr (hr : rest.head? ≠ some 10) : LineTerminatorSequence rest [13]
  | lineSeparator : LineTerminatorSequence rest [0x2028]
  | paragraphSeparator : LineTerminatorSequence rest [0x2029]
  | crlf : LineTerminatorSequence rest [13, 10]

/-- What may stand between two quotes, and its value in UTF-16 units. -/
inductive StringCharacters (quote : CodePoint) : Text → List Nat → Prop where
  | nil : StringCharacters quote [] []
  | character {c : CodePoint} {r : Text} {v : List Nat} (hq : c ≠ quote) (hb : c ≠ 92)
      (hlf : c ≠ 10) (hcr : c ≠ 13) (hr : StringCharacters quote r v) :
      StringCharacters quote (c :: r) (Json.units c ++ v)
  | escape {body r : Text} {value v : List Nat} (he : EscapeSequence r body value)
      (hr : StringCharacters quote r v) : StringCharacters quote (92 :: body ++ r) (value ++ v)
  | continuation {body r : Text} {v : List Nat} (hl : LineTerminatorSequence r body)
      (hr : StringCharacters quote r v) : StringCharacters quote (92 :: body ++ r) v

end Grammar

/-- An octal escape that begins with 4 to 7, and a third octal digit behind it. -/
def BeginsHighOctals (t : Text) : Prop :=
  ∃ c d e r, t = 92 :: c :: d :: e :: r ∧ isOctalDigit c = true ∧ 52 ≤ c ∧ isOctalDigit d = true ∧
    isOctalDigit e = true

variable {c d : CodePoint} {digits rest body raw r : Text} {value v : List Nat} {quote : CodePoint}

section Digits

theorem isOctalDigit_iff {n : Nat} : isOctalDigit n = true ↔ 48 ≤ n ∧ n ≤ 55 := by
  simp [isOctalDigit]

theorem isDigit_iff {n : Nat} : isDigit n = true ↔ 48 ≤ n ∧ n ≤ 57 := by
  simp [isDigit]

theorem isDigit_of_isOctalDigit {n : Nat} (h : isOctalDigit n = true) : isDigit n = true := by
  rw [isOctalDigit_iff] at h
  rw [isDigit_iff]
  omega

theorem digitValue_of_isDigit {n : Nat} (h : isDigit n = true) : digitValue n = n - 48 := by
  rw [digitValue, if_pos h]

theorem digitValue_lt_of_isOctalDigit {n : Nat} (h : isOctalDigit n = true) : digitValue n < 8 := by
  rw [digitValue_of_isDigit (isDigit_of_isOctalDigit h)]
  rw [isOctalDigit_iff] at h
  omega

theorem digitValue_lt_of_isHexDigit {n : Nat} (h : isHexDigit n = true) : digitValue n < 16 := by
  have h : isDigit n = true ∨ (97 ≤ n ∧ n ≤ 102) ∨ (65 ≤ n ∧ n ≤ 70) := by
    simpa [isHexDigit, or_assoc] using h
  by_cases hd : isDigit n = true
  · rw [digitValue_of_isDigit hd]
    rw [isDigit_iff] at hd
    omega
  · have h := h.resolve_left hd
    have hvalue : digitValue n = if 97 ≤ n then n - 87 else n - 55 := by
      rw [digitValue, if_neg hd]
    rw [hvalue]
    split <;> omega

/-- What digits denote is bounded by how many there are. -/
theorem ofDigits_lt {base : Nat} (h : ∀ d ∈ digits, digitValue d < base) :
    ofDigits base digits < base ^ digits.length := by
  induction digits using List.reverseRecOn with
  | nil => exact Nat.one_pos
  | append_singleton l c ih =>
    have hl := ih fun d hd => h d (List.mem_append_left _ hd)
    have hc := h c (List.mem_append_right _ (List.mem_singleton_self c))
    have heq : ofDigits base (l ++ [c]) = ofDigits base l * base + digitValue c := by
      simp [ofDigits]
    rw [heq, List.length_append, List.length_singleton, Nat.pow_succ]
    calc ofDigits base l * base + digitValue c
      _ < ofDigits base l * base + base := Nat.add_lt_add_left hc _
      _ = (ofDigits base l + 1) * base := (Nat.succ_mul _ _).symm
      _ ≤ base ^ l.length * base := Nat.mul_le_mul_right _ hl

end Digits

section Reading

/-- What stands behind a backslash is read as an escape of this length and value. -/
def ReadAs (rest body : Text) (value : List Nat) : Prop :=
  ∃ e v, readEscape (body ++ rest) = some (e, body.length) ∧ e.value = .ok v ∧ codeUnits v = value

theorem ReadAs.numeric {n : Nat} (he : readEscape (body ++ rest) = some (.numeric n, body.length))
    (hn : n < 0x10000) : ReadAs rest body [n] := ⟨_, _, he, rfl, codeUnits_singleton_of_lt hn⟩

theorem readEscape_single (hu : c ≠ cp 'u') (hx : c ≠ cp 'x') (ho : isOctalDigit c = false)
    (hl : isLineBreak c = false) (r : Text) : readEscape (c :: r) = some (.single c, 1) := by
  have hcr : (c = 13 && r.head? = some 10) = false := by
    rw [Bool.and_eq_false_iff]
    left
    rw [decide_eq_false_iff_not]
    rintro rfl
    cases hl
  rw [readEscape, if_neg hu, if_neg hx, ho, if_neg Bool.false_ne_true, hcr, if_neg Bool.false_ne_true,
    hl, if_neg Bool.false_ne_true]

theorem readAs_single {n : Nat} (h : (c, n) ∈ singleEscapes) : ReadAs rest [c] [n] := by
  simp only [singleEscapes, List.mem_cons, Prod.mk.injEq, List.not_mem_nil, or_false] at h
  obtain ⟨rfl, rfl⟩ | ⟨rfl, rfl⟩ | ⟨rfl, rfl⟩ | ⟨rfl, rfl⟩ | ⟨rfl, rfl⟩ | ⟨rfl, rfl⟩ | ⟨rfl, rfl⟩ |
    ⟨rfl, rfl⟩ | ⟨rfl, rfl⟩ := h <;> exact ⟨_, _, rfl, rfl, rfl⟩

theorem readAs_itself (hc : isEscapeCharacter c = false) (hl : isLineBreak c = false) :
    ReadAs rest [c] (Json.units c) := by
  simp only [isEscapeCharacter, singleEscapes, List.any_cons, List.any_nil, Bool.or_false,
    Bool.or_eq_false_iff, beq_eq_false_iff_ne, ne_eq] at hc
  obtain ⟨⟨⟨⟨-, -, -, hb, hf, hn, hr, ht, hv⟩, hd⟩, hx⟩, hu⟩ := hc
  have ho : isOctalDigit c = false := by
    rw [← Bool.not_eq_true] at hd ⊢
    exact fun ho => hd (isDigit_of_isOctalDigit ho)
  have hsame : singleMeaning c = c := by
    unfold singleMeaning
    rw [if_neg (Ne.symm hn), if_neg (Ne.symm ht), if_neg (Ne.symm hr), if_neg (Ne.symm hb),
      if_neg (Ne.symm hf), if_neg (Ne.symm hv)]
  refine ⟨_, _, readEscape_single hu hx ho hl rest, rfl, ?_⟩
  rw [hsame, codeUnits_cons]
  exact List.append_nil _

/-- Octal digits are read up to the third, or to the last before another character. -/
theorem readAs_octals (hc : isOctalDigit c = true) (hd : ∀ d ∈ digits, isOctalDigit d = true)
    (hlen : digits.length ≤ 2) (hr : digits.length = 2 ∨ ¬ GoesOn isOctalDigit rest) :
    ReadAs rest (c :: digits) [ofDigits 8 (c :: digits)] := by
  have htake : ((digits ++ rest).take 2).takeWhile isOctalDigit = digits := by
    rw [List.take_append, List.take_of_length_le hlen, List.takeWhile_append_of_pos hd]
    rcases hr with hr | hr
    · rw [hr, Nat.sub_self, List.take_zero, List.takeWhile_nil, List.append_nil]
    · cases rest with
      | nil => rw [List.take_nil, List.takeWhile_nil, List.append_nil]
      | cons e rest =>
        have he : ¬ isOctalDigit e = true := fun he => hr ⟨e, rest, rfl, he⟩
        cases 2 - digits.length with
        | zero => rw [List.take_zero, List.takeWhile_nil, List.append_nil]
        | succ n => rw [List.take_succ_cons, List.takeWhile_cons_of_neg he, List.append_nil]
  refine .numeric (by rw [List.cons_append, readEscape_octal hc, htake]; rfl) ?_
  have hlt : ofDigits 8 (c :: digits) < 8 ^ (c :: digits).length := ofDigits_lt fun d hm => by
    rcases List.mem_cons.1 hm with rfl | hm
    · exact digitValue_lt_of_isOctalDigit hc
    · exact digitValue_lt_of_isOctalDigit (hd d hm)
  have hpow : 8 ^ (c :: digits).length ≤ 8 ^ 3 :=
    Nat.pow_le_pow_right (by decide) (Nat.succ_le_succ hlen)
  omega

theorem readAs_null (hr : ¬ GoesOn isOctalDigit rest) : ReadAs rest [48] [0] :=
  have hnone : ∀ d ∈ ([] : Text), isOctalDigit d = true := nofun
  readAs_octals (c := 48) rfl hnone (by decide) (.inr hr)

theorem fixedDigits?_append {n : Nat} (hlen : digits.length = n)
    (hd : ∀ d ∈ digits, isHexDigit d = true) (rest : Text) :
    fixedDigits? n (digits ++ rest) = some digits :=
  fixedDigits?_eq_some_iff.2 ⟨hlen, hd, List.prefix_append digits rest⟩

theorem ofDigits_lt_of_isHexDigit {n : Nat} (hlen : digits.length = n)
    (hd : ∀ d ∈ digits, isHexDigit d = true) : ofDigits 16 digits < 16 ^ n :=
  hlen ▸ ofDigits_lt fun d hm => digitValue_lt_of_isHexDigit (hd d hm)

theorem readAs_hex (hlen : digits.length = 2) (hd : ∀ d ∈ digits, isHexDigit d = true) :
    ReadAs rest (cp 'x' :: digits) [ofDigits 16 digits] := by
  refine .numeric ?_ (Nat.lt_trans (ofDigits_lt_of_isHexDigit hlen hd) (by decide))
  rw [List.cons_append, readEscape, if_neg (by decide), if_pos rfl, fixedDigits?_append hlen hd,
    List.length_cons, hlen]

theorem readAs_unit (hlen : digits.length = 4) (hd : ∀ d ∈ digits, isHexDigit d = true) :
    ReadAs rest (cp 'u' :: digits) [ofDigits 16 digits] := by
  refine .numeric ?_ (ofDigits_lt_of_isHexDigit hlen hd)
  have hbraced : bracedDigits? (digits ++ rest) = none := by
    obtain ⟨d, ds, rfl⟩ := List.exists_cons_of_length_eq_add_one hlen
    have hne : d ≠ 123 := by
      rintro rfl
      exact absurd (hd 123 List.mem_cons_self) (by decide)
    rw [Option.eq_none_iff_forall_ne_some]
    intro found hfound
    obtain ⟨-, -, after, h⟩ := bracedDigits?_eq_some_iff.1 hfound
    exact hne (List.cons.inj h).1
  rw [List.cons_append, readEscape, if_pos rfl, hbraced, fixedDigits?_append hlen hd,
    List.length_cons, hlen]

theorem readAs_codePoint (hne : digits ≠ []) (hd : ∀ d ∈ digits, isHexDigit d = true)
    (hle : ofDigits 16 digits ≤ maxCodePoint) :
    ReadAs rest (cp 'u' :: 123 :: digits ++ [125]) (Json.units (ofDigits 16 digits)) := by
  have hbraced : bracedDigits? (123 :: digits ++ 125 :: rest) = some digits :=
    bracedDigits?_eq_some_iff.2 ⟨hne, hd, rest, rfl⟩
  have happend : cp 'u' :: 123 :: digits ++ [125] ++ rest =
      cp 'u' :: (123 :: digits ++ 125 :: rest) := by simp
  refine ⟨.braced (ofDigits 16 digits) (cp 'u' :: 123 :: digits ++ [125]), [ofDigits 16 digits],
    ?_, if_neg (Nat.not_lt.2 hle), ?_⟩
  · rw [happend, readEscape, if_pos rfl, hbraced]
    simp
  · rw [codeUnits_cons]
    exact List.append_nil _

/-- The escapes of the grammar are read as they are meant, unless there is an octal digit too
many. -/
theorem EscapeSequence.readAs (h : EscapeSequence rest body value)
    (hnot : ¬ BeginsHighOctals (92 :: body ++ rest)) : ReadAs rest body value := by
  cases h with
  | single hc => exact readAs_single hc
  | itself hc hl => exact readAs_itself hc hl
  | null hr => exact readAs_null fun ⟨c, r, h, hc⟩ => hr ⟨c, r, h, isDigit_of_isOctalDigit hc⟩
  | nullBefore hr =>
    refine readAs_null fun ⟨c, r, h, hc⟩ => ?_
    obtain ⟨d, _, hd, hdigit⟩ := hr
    obtain ⟨rfl, -⟩ := List.cons.inj (h.symm.trans hd)
    simp only [Bool.or_eq_true, beq_iff_eq] at hdigit
    rcases hdigit with rfl | rfl <;> cases hc
  | octal hc _ hr => exact readAs_octals hc nofun (by simp) (.inr hr)
  | lowOctals hc _ hd hr => exact readAs_octals hc (by simpa using hd) (by simp) (.inr hr)
  | @highOctals c d hc hhigh hd =>
    exact readAs_octals hc (by simpa using hd) (by simp)
      (.inr fun ⟨e, r, h, he⟩ => hnot ⟨c, d, e, r, by rw [h]; rfl, hc, hhigh, hd, he⟩)
  | threeOctals hc _ hd he => exact readAs_octals hc (by simp [hd, he]) (by simp) (.inl rfl)
  | noOctal hc => rcases hc with rfl | rfl <;> exact ⟨_, _, rfl, rfl, rfl⟩
  | hex hlen hd => exact readAs_hex hlen hd
  | unit hlen hd => exact readAs_unit hlen hd
  | codePoint hne hd hle => exact readAs_codePoint hne hd hle

theorem LineTerminatorSequence.readAs (h : LineTerminatorSequence rest body) :
    ReadAs rest body [] := by
  refine ⟨.continuation, [], ?_, rfl, rfl⟩
  cases h with
  | lf | lineSeparator | paragraphSeparator | crlf => rfl
  | cr hr =>
    rw [List.singleton_append, readEscape, if_neg (by decide), if_neg (by decide),
      if_neg (by decide), if_neg (by simpa using hr)]
    rfl

/-- Behind its first character an escape has no backslash. -/
def Plain (body : Text) : Prop := ∃ c tail, body = c :: tail ∧ ∀ x ∈ tail, x ≠ 92

theorem ne_of_isOctalDigit (h : isOctalDigit c = true) : c ≠ 92 := by
  rintro rfl
  cases h

theorem EscapeSequence.plain (h : EscapeSequence rest body value) : Plain body := by
  cases h with
  | single | itself | null | nullBefore | octal | noOctal => exact ⟨_, _, rfl, nofun⟩
  | lowOctals _ _ hd | highOctals _ _ hd => exact ⟨_, _, rfl, by simpa using ne_of_isOctalDigit hd⟩
  | threeOctals _ _ hd he =>
    exact ⟨_, _, rfl, by simpa using ⟨ne_of_isOctalDigit hd, ne_of_isOctalDigit he⟩⟩
  | hex _ hd | unit _ hd => exact ⟨_, _, rfl, fun x hx => ne_of_isHexDigit (hd x hx)⟩
  | codePoint _ hd =>
    refine ⟨_, _, rfl, fun x hx => ?_⟩
    rw [List.append_eq, List.mem_append, List.mem_cons, List.mem_singleton] at hx
    rcases hx with (rfl | hx) | rfl
    · decide
    · exact ne_of_isHexDigit (hd x hx)
    · decide

theorem LineTerminatorSequence.plain (h : LineTerminatorSequence rest body) : Plain body := by
  cases h with
  | lf | cr | lineSeparator | paragraphSeparator => exact ⟨_, _, rfl, nofun⟩
  | crlf => exact ⟨_, _, rfl, by decide⟩

theorem LineTerminatorSequence.not_beginsHighOctals (h : LineTerminatorSequence rest body) :
    ¬ BeginsHighOctals (92 :: body ++ rest) := by
  rintro ⟨c, d, e, r, heq, hc, -⟩
  cases h <;> cases heq <;> cases hc

end Reading

section Values

/-- Cooking comes to a value, unless there is an octal digit too many. -/
def CooksTo (raw : Text) (value : List Nat) : Prop :=
  ∃ t, cook raw = .ok t ∧ (codeUnits t = value ↔ ¬ Meets BeginsHighOctals raw)

theorem not_beginsHighOctals (hc : c ≠ 92) (u : Text) : ¬ BeginsHighOctals (c :: u) :=
  fun ⟨_, _, _, _, h, _⟩ => hc (List.cons.inj h).1

theorem CooksTo.character (hc : c ≠ 92) (h : CooksTo r v) : CooksTo (c :: r) (Json.units c ++ v) := by
  obtain ⟨t, ht, hiff⟩ := h
  refine ⟨c :: t, by rw [cook_cons hc, ht]; rfl, ?_⟩
  have hmeets : Meets BeginsHighOctals (c :: r) ↔ Meets BeginsHighOctals r :=
    (meets_cons hc).trans (or_iff_right (not_beginsHighOctals hc r))
  rw [codeUnits_cons, List.append_cancel_left_eq, hiff, hmeets]

theorem CooksTo.escape (hbody : Plain body) (hread : ReadAs r body value)
    (hnot : ¬ BeginsHighOctals (92 :: body ++ r)) (h : CooksTo r v) :
    CooksTo (92 :: body ++ r) (value ++ v) := by
  obtain ⟨e, w, he, hw, hvalue⟩ := hread
  obtain ⟨t, ht, hiff⟩ := h
  refine ⟨w ++ t, ?_, ?_⟩
  · rw [List.cons_append, cook_escape he, List.drop_left, hw, ht]
    rfl
  · obtain ⟨c, tail, rfl, htail⟩ := hbody
    have hmeets : Meets BeginsHighOctals (92 :: c :: (tail ++ r)) ↔ Meets BeginsHighOctals r :=
      (meets_escape.trans (or_iff_right hnot)).trans
        (meets_append fun x hx => ⟨htail x hx, not_beginsHighOctals (htail x hx)⟩)
    rw [codeUnits_append, hvalue, List.append_cancel_left_eq, hiff]
    exact not_congr hmeets.symm

/-- A third octal digit behind 4 to 7 is taken into the escape, whose value is too large then. -/
theorem cooksTo_highOctals {c d e : Nat} (hc : isOctalDigit c = true) (hhigh : 52 ≤ c)
    (hd : isOctalDigit d = true) (he : isOctalDigit e = true) (h : CooksTo (e :: r) v) :
    CooksTo (92 :: [c, d] ++ e :: r) ([ofDigits 8 [c, d]] ++ v) := by
  obtain ⟨t, ht, -⟩ := h
  obtain ⟨w, hw⟩ : Cookable r := (cookable_cons (ne_of_isOctalDigit he)).1 ⟨t, ht⟩
  have hread : readEscape (c :: d :: e :: r) = some (.numeric (ofDigits 8 [c, d, e]), 3) := by
    rw [readEscape_octal hc, List.take_succ_cons, List.take_succ_cons, List.take_zero,
      List.takeWhile_cons_of_pos hd, List.takeWhile_cons_of_pos he, List.takeWhile_nil]
    rfl
  -- the octal number of three digits is larger than that of the first two
  have hvalue : ofDigits 8 [c, d, e] = ofDigits 8 [c, d] * 8 + digitValue e := rfl
  have hpos : ofDigits 8 [c, d] = digitValue c * 8 + digitValue d := by simp [ofDigits]
  have hfirst : digitValue c = c - 48 := digitValue_of_isDigit (isDigit_of_isOctalDigit hc)
  have hlt : ofDigits 8 [c, d, e] < 8 ^ 3 := ofDigits_lt (by
    simpa using ⟨digitValue_lt_of_isOctalDigit hc, digitValue_lt_of_isOctalDigit hd,
      digitValue_lt_of_isOctalDigit he⟩)
  refine ⟨ofDigits 8 [c, d, e] :: w, ?_, iff_of_false (fun heq => ?_) fun hnot => hnot ?_⟩
  · rw [List.cons_append, List.cons_append, List.cons_append, List.nil_append, cook_escape hread]
    simp only [List.drop_succ_cons, List.drop_zero, Escape.value, hw]
    rfl
  · rw [codeUnits_cons, Json.units, if_pos (Nat.lt_trans hlt (by decide))] at heq
    have hsame : ofDigits 8 [c, d, e] = ofDigits 8 [c, d] := (List.cons.inj heq).1
    omega
  · exact ⟨[], _, rfl, rfl, c, d, e, r, rfl, hc, hhigh, hd, he⟩

/-- An escape with an octal digit too many behind it is one of two octal digits. -/
theorem EscapeSequence.of_beginsHighOctals (h : EscapeSequence rest body value)
    (hh : BeginsHighOctals (92 :: body ++ rest)) : ∃ c d e r, body = [c, d] ∧ rest = e :: r ∧
      value = [ofDigits 8 [c, d]] ∧ isOctalDigit c = true ∧ 52 ≤ c ∧ isOctalDigit d = true ∧
        isOctalDigit e = true := by
  obtain ⟨c, d, e, r, heq, hc, hhigh, hd, he⟩ := hh
  have heq : body ++ rest = c :: d :: e :: r := (List.cons.inj heq).2
  have hlarge {n : Nat} (hc : 52 ≤ n) (hlow : n ≤ 51) : False := by omega
  -- No other escape starts with a digit from 4 up and has an octal digit behind it.
  cases h with
  | highOctals =>
    cases heq
    exact ⟨c, d, e, r, rfl, rfl, rfl, hc, hhigh, hd, he⟩
  | single hsingle =>
    have hnone : ∀ p ∈ singleEscapes, isOctalDigit p.1 = false := by decide
    cases heq
    rw [hnone _ hsingle] at hc
    cases hc
  | itself hitself =>
    cases heq
    rw [isEscapeCharacter, isDigit_of_isOctalDigit hc] at hitself
    simp at hitself
  | null | nullBefore =>
    cases heq
    exact (hlarge hhigh (by decide)).elim
  | octal _ _ hr =>
    cases heq
    exact absurd ⟨d, _, rfl, hd⟩ hr
  | lowOctals _ hlow | threeOctals _ hlow =>
    cases heq
    exact (hlarge hhigh hlow).elim
  | noOctal h =>
    cases heq
    rcases h with rfl | rfl <;> cases hc
  | hex | unit | codePoint =>
    obtain ⟨rfl, -⟩ := List.cons.inj heq
    cases hc

end Values

/-- **Cooking comes to the string value of a literal just when** no octal escape that begins with 4
to 7 has a third octal digit behind it. Whatever the grammar accepts between two quotes can be
cooked. -/
theorem cook_units_iff (h : StringCharacters quote raw value) :
    ∃ t, cook raw = .ok t ∧ (codeUnits t = value ↔ ¬ Meets BeginsHighOctals raw) := by
  suffices h : CooksTo raw value from h
  induction h with
  | nil =>
    refine ⟨[], rfl, iff_of_true rfl ?_⟩
    rw [meets_nil]
    exact fun ⟨_, _, _, _, h, _⟩ => nomatch h
  | character _ hb _ _ _ ih => exact ih.character hb
  | @escape body r value v he _ ih =>
    by_cases hhigh : BeginsHighOctals (92 :: body ++ r)
    · obtain ⟨c, d, e, r, rfl, rfl, rfl, hc, hhigh, hd, he⟩ := he.of_beginsHighOctals hhigh
      exact cooksTo_highOctals hc hhigh hd he ih
    · exact ih.escape he.plain (he.readAs hhigh) hhigh
  | continuation hl _ ih => exact ih.escape hl.plain hl.readAs hl.not_beginsHighOctals

/-- Between quotes, `\400` is a space and a zero; it is cooked to one character. -/
theorem cook_highOctals : StringCharacters 39 (text "\\400") [0x20, 0x30] ∧
    cook (text "\\400") = .ok [0x100] ∧ codeUnits [0x100] ≠ [0x20, 0x30] := by
  refine ⟨?_, rfl, by decide⟩
  have hzero : StringCharacters 39 [48] [0x30] :=
    .character (by decide) (by decide) (by decide) (by decide) .nil
  exact .escape (.highOctals (c := 52) (d := 48) rfl (by decide) rfl) hzero

/-- A text with a tabulator, a code point in braces, an octal escape before an eight, and a line
break that is passed over. -/
theorem cook_units_iff_mixed :
    let raw := text "\\ta\\u\x7b1F600\x7d\\778\\\r\n"
    StringCharacters 34 raw [9, 97, 0xd83d, 0xde00, 63, 56] ∧ cook raw = .ok [9, 97, 0x1f600, 63, 56] ∧
      ¬ Meets BeginsHighOctals raw := by
  intro raw
  have hchars : StringCharacters 34 raw [9, 97, 0xd83d, 0xde00, 63, 56] := by
    have hend : StringCharacters 34 (92 :: [13, 10] ++ []) [] := .continuation .crlf .nil
    have height : StringCharacters 34 (56 :: 92 :: [13, 10]) [56] :=
      .character (by decide) (by decide) (by decide) (by decide) hend
    have hoctal := StringCharacters.escape (.highOctals (c := 55) (d := 55) rfl (by decide) rfl) height
    have hface (rest : Text) : EscapeSequence rest (text "u\x7b1F600\x7d") [0xd83d, 0xde00] :=
      @EscapeSequence.codePoint rest (text "1F600") (by decide) (by decide) (by decide)
    have hpoint := StringCharacters.escape (hface _) hoctal
    have hletter : StringCharacters 34 (97 :: _) _ :=
      .character (by decide) (by decide) (by decide) (by decide) hpoint
    exact .escape (.single (c := cp 't') (v := 9) (by decide)) hletter
  obtain ⟨t, ht, hiff⟩ := cook_units_iff hchars
  have hcook : cook raw = .ok [9, 97, 0x1f600, 63, 56] := rfl
  rw [hcook] at ht
  cases ht
  exact ⟨hchars, hcook, hiff.1 (by decide)⟩

end KeyTrace.Literal
