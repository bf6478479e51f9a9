/-
Which texts can be cooked: all but those with an escape in braces, past the last
code point, whose backslash is not escaped itself.

After a backslash and the character behind it an escape goes on without another
backslash. So it does not matter for what fails where each escape ends.
-/
import KeyTrace.Literal.Cook
import Mathlib.Data.List.Forall2

namespace KeyTrace.Literal

variable {t u r : Text} {c : CodePoint}

section Results

variable {α β : Type}

/-- One thing after another has a result just when each has. -/
theorem bind_ok_iff {a : Except InvalidEscape α} {f : α → Except InvalidEscape β} {b : β} :
    (a >>= f) = .ok b ↔ ∃ v, a = .ok v ∧ f v = .ok b := by
  cases a with
  | error e => simp [Bind.bind, Except.bind]
  | ok v => simp [Bind.bind, Except.bind]

theorem mapM_ok_iff {f : α → Except InvalidEscape β} : ∀ {l : List α} {bs : List β},
    l.mapM f = .ok bs ↔ List.Forall₂ (fun a b => f a = .ok b) l bs
  | [], bs => by
    rw [List.mapM_nil, List.forall₂_nil_left_iff]
    exact ⟨fun h => (Except.ok.inj h).symm, fun h => congrArg _ h.symm⟩
  | a :: l, bs => by
    rw [List.mapM_cons, bind_ok_iff, List.forall₂_cons_left_iff]
    constructor
    · rintro ⟨b, hb, h⟩
      obtain ⟨bs', hbs, h⟩ := bind_ok_iff.1 h
      exact ⟨b, bs', hb, mapM_ok_iff.1 hbs, (Except.ok.inj h).symm⟩
    · rintro ⟨b, bs', hb, hbs, rfl⟩
      exact ⟨b, hb, bind_ok_iff.2 ⟨bs', mapM_ok_iff.2 hbs, rfl⟩⟩

end Results

/-- A text has a value. -/
def Cookable (t : Text) : Prop := ∃ v, cook t = .ok v

/-- Digits in braces that denote no code point. -/
structure OutOfRange (digits : Text) : Prop where
  ne_nil : digits ≠ []
  hex : ∀ d ∈ digits, isHexDigit d = true
  past : maxCodePoint < ofDigits 16 digits

/-- What stands behind a backslash begins an escape that denotes no code point. -/
def BeginsOutOfRange (t : Text) : Prop :=
  ∃ digits after, OutOfRange digits ∧ t = 117 :: 123 :: digits ++ 125 :: after

theorem bracedDigits?_eq_some_iff {digits : Text} : bracedDigits? t = some digits ↔
    digits ≠ [] ∧ (∀ d ∈ digits, isHexDigit d = true) ∧ ∃ after, t = 123 :: digits ++ 125 :: after := by
  constructor
  · intro h
    unfold bracedDigits? at h
    split at h
    · next r =>
      dsimp only at h
      split at h
      · next d ds after hd ha =>
        cases h
        refine ⟨by rw [hd]; nofun, List.all_eq_true.1 List.all_takeWhile, after, ?_⟩
        rw [← ha, List.cons_append, List.takeWhile_append_dropWhile]
      · cases h
    · cases h
  · rintro ⟨hne, hhex, after, rfl⟩
    obtain ⟨d, ds, rfl⟩ := List.exists_cons_of_ne_nil hne
    have htake : ((d :: ds) ++ 125 :: after).takeWhile isHexDigit = d :: ds := by
      rw [List.takeWhile_append_of_pos hhex, List.takeWhile_cons_of_neg (by decide), List.append_nil]
    have hdrop : ((d :: ds) ++ 125 :: after).dropWhile isHexDigit = 125 :: after := by
      rw [List.dropWhile_append_of_pos hhex, List.dropWhile_cons_of_neg (by decide)]
    unfold bracedDigits?
    simp only [List.cons_append] at htake hdrop ⊢
    rw [htake, hdrop]
    rfl

/-- The text behind a backslash begins an escape out of range if there are digits in braces. -/
theorem beginsOutOfRange_iff : BeginsOutOfRange (117 :: r) ↔
    ∃ digits, bracedDigits? r = some digits ∧ maxCodePoint < ofDigits 16 digits := by
  constructor
  · rintro ⟨digits, after, ⟨hne, hhex, hpast⟩, h⟩
    cases h
    exact ⟨digits, bracedDigits?_eq_some_iff.2 ⟨hne, hhex, after, rfl⟩, hpast⟩
  · rintro ⟨digits, h, hpast⟩
    obtain ⟨hne, hhex, after, rfl⟩ := bracedDigits?_eq_some_iff.1 h
    exact ⟨digits, after, ⟨hne, hhex, hpast⟩, rfl⟩

theorem BeginsOutOfRange.head (h : BeginsOutOfRange (c :: r)) : c = 117 := by
  obtain ⟨_, _, -, h⟩ := h
  exact (List.cons.inj h).1

theorem fixedDigits?_eq_some_iff {n : Nat} {digits : Text} : fixedDigits? n t = some digits ↔
    digits.length = n ∧ (∀ d ∈ digits, isHexDigit d = true) ∧ digits <+: t := by
  unfold fixedDigits?
  constructor
  · intro h
    dsimp only at h
    split at h
    · next hd =>
      rw [Bool.and_eq_true, decide_eq_true_eq] at hd
      cases h
      exact ⟨hd.1, List.all_eq_true.1 hd.2, List.take_prefix n t⟩
    · cases h
  · rintro ⟨rfl, hhex, hp⟩
    rw [← List.prefix_iff_eq_take.1 hp]
    exact if_pos (by rw [List.all_eq_true.2 hhex]; simp)

/-- At most three octal digits are one escape. -/
theorem readEscape_octal (h : isOctalDigit c = true) (r : Text) :
    readEscape (c :: r) = some (.numeric (ofDigits 8 (c :: (r.take 2).takeWhile isOctalDigit)),
      ((r.take 2).takeWhile isOctalDigit).length + 1) := by
  have hu : c ≠ cp 'u' := by
    rintro rfl
    cases h
  have hx : c ≠ cp 'x' := by
    rintro rfl
    cases h
  rw [readEscape, if_neg hu, if_neg hx, if_pos h, List.take_succ_cons, List.takeWhile_cons_of_pos h]
  rfl

theorem isHexDigit_of_isOctalDigit {n : Nat} (h : isOctalDigit n = true) : isHexDigit n = true := by
  have h : 48 ≤ n ∧ n ≤ 55 := by simpa [isOctalDigit] using h
  have h : (48 ≤ n ∧ n ≤ 57) ∨ (97 ≤ n ∧ n ≤ 102) ∨ (65 ≤ n ∧ n ≤ 70) := by omega
  simpa [isHexDigit, isDigit, or_assoc] using h

/-- What a character with a text behind it is as an escape, and how much of the text it takes. -/
inductive Escape.Form (c : CodePoint) (r : Text) : Escape → Nat → Prop
  | braced {digits : Text} : c = 117 → bracedDigits? r = some digits →
      Escape.Form c r (.braced (ofDigits 16 digits) (c :: 123 :: digits ++ [125])) (digits.length + 2)
  | hex {n : Nat} {digits : Text} : (c = 117 → bracedDigits? r = none) →
      fixedDigits? n r = some digits → Escape.Form c r (.numeric (ofDigits 16 digits)) n
  | octal : isOctalDigit c = true →
      Escape.Form c r (.numeric (ofDigits 8 (c :: (r.take 2).takeWhile isOctalDigit)))
        ((r.take 2).takeWhile isOctalDigit).length
  | lineEnd : c = 13 → r.head? = some 10 → Escape.Form c r .continuation 1
  | lineBreak : isLineBreak c = true → Escape.Form c r .continuation 0
  | single : (c = 117 → bracedDigits? r = none) → Escape.Form c r (.single c) 0

/-- Every character behind a backslash is read as an escape of some form. -/
theorem readEscape_form (c : CodePoint) (r : Text) :
    ∃ e n, readEscape (c :: r) = some (e, n + 1) ∧ Escape.Form c r e n := by
  by_cases hu : c = cp 'u'
  · rw [readEscape, if_pos hu]
    cases hb : bracedDigits? r with
    | some ds => exact ⟨_, _, rfl, .braced hu hb⟩
    | none =>
      cases hf : fixedDigits? 4 r with
      | some ds => exact ⟨_, _, rfl, .hex (fun _ => hb) hf⟩
      | none => exact ⟨_, _, rfl, .single fun _ => hb⟩
  have hb (h : c = 117) : bracedDigits? r = none := absurd h hu
  by_cases hx : c = cp 'x'
  · rw [readEscape, if_neg hu, if_pos hx]
    cases hf : fixedDigits? 2 r with
    | some ds => exact ⟨_, _, rfl, .hex hb hf⟩
    | none => exact ⟨_, _, rfl, .single hb⟩
  by_cases ho : isOctalDigit c = true
  · exact ⟨_, _, readEscape_octal ho r, .octal ho⟩
  rw [readEscape, if_neg hu, if_neg hx, if_neg ho]
  by_cases hr : (c = 13 && r.head? = some 10) = true
  · rw [if_pos hr]
    rw [Bool.and_eq_true, decide_eq_true_eq, decide_eq_true_eq] at hr
    exact ⟨_, _, rfl, .lineEnd hr.1 hr.2⟩
  rw [if_neg hr]
  by_cases hl : isLineBreak c = true
  · rw [if_pos hl]
    exact ⟨_, _, rfl, .lineBreak hl⟩
  · rw [if_neg hl]
    exact ⟨_, _, rfl, .single hb⟩

/-- What an escape takes behind its first character: digits, braces around them, or the LF of a
CRLF. -/
theorem Escape.Form.tail {e : Escape} {n : Nat} (h : Escape.Form c r e n) :
    ∀ x ∈ r.take n, isHexDigit x = true ∨ x = 123 ∨ x = 125 ∨ c = 13 ∧ x = 10 := by
  intro x hx
  cases h with
  | @braced digits _ hb =>
    obtain ⟨-, hhex, after, rfl⟩ := bracedDigits?_eq_some_iff.1 hb
    have htake : (123 :: digits ++ 125 :: after).take (digits.length + 2) =
        123 :: digits ++ [125] := by
      rw [show 123 :: digits ++ 125 :: after = (123 :: digits ++ [125]) ++ after by simp,
        List.take_left' (by simp)]
    rw [htake, List.mem_append, List.mem_cons, List.mem_singleton] at hx
    rcases hx with (rfl | hx) | rfl
    · exact .inr (.inl rfl)
    · exact .inl (hhex x hx)
    · exact .inr (.inr (.inl rfl))
  | hex _ hf =>
    obtain ⟨rfl, hhex, hp⟩ := fixedDigits?_eq_some_iff.1 hf
    rw [← List.prefix_iff_eq_take.1 hp] at hx
    exact .inl (hhex x hx)
  | octal =>
    have hprefix := (List.takeWhile_prefix isOctalDigit).trans (List.take_prefix 2 r)
    rw [← List.prefix_iff_eq_take.1 hprefix] at hx
    exact .inl (isHexDigit_of_isOctalDigit (List.all_eq_true.1 List.all_takeWhile x hx))
  | lineEnd hc hr =>
    obtain ⟨r, rfl⟩ := List.head?_eq_some_iff.1 hr
    exact .inr (.inr (.inr ⟨hc, List.mem_singleton.1 hx⟩))
  | lineBreak | single => cases hx

theorem form_of_readEscape {e : Escape} {n : Nat} (h : readEscape (c :: r) = some (e, n + 1)) :
    Escape.Form c r e n := by
  obtain ⟨e', n', he, hform⟩ := readEscape_form c r
  cases he.symm.trans h
  exact hform

theorem ne_of_isHexDigit {x : CodePoint} (h : isHexDigit x = true) : x ≠ 92 := by
  rintro rfl
  cases h

/-- How an escape at a backslash with `c` and `r` behind it ends, and when it has a value. -/
def Escapes (c : CodePoint) (r : Text) : Prop :=
  ∃ e n, readEscape (c :: r) = some (e, n + 1) ∧ (∀ x ∈ r.take n, x ≠ 92) ∧
    ((∃ v, e.value = .ok v) ↔ ¬ BeginsOutOfRange (c :: r))

theorem Escape.Form.escapes {e : Escape} {n : Nat} (hform : Escape.Form c r e n)
    (he : readEscape (c :: r) = some (e, n + 1))
    (hv : (∃ v, e.value = .ok v) ↔ ¬ BeginsOutOfRange (c :: r)) : Escapes c r := by
  refine ⟨e, n, he, fun x hx => ?_, hv⟩
  rcases hform.tail x hx with h | rfl | rfl | ⟨-, rfl⟩
  · exact ne_of_isHexDigit h
  all_goals decide

/-- Out of range are digits in braces alone. -/
theorem not_beginsOutOfRange (hb : c = 117 → bracedDigits? r = none) :
    ¬ BeginsOutOfRange (c :: r) := by
  intro h
  obtain rfl := h.head
  obtain ⟨_, h, -⟩ := beginsOutOfRange_iff.1 h
  rw [hb rfl] at h
  cases h

/-- Behind a backslash and a character an escape goes on without a backslash. -/
theorem escapes (c : CodePoint) (r : Text) : Escapes c r := by
  obtain ⟨e, n, he, hform⟩ := readEscape_form c r
  refine hform.escapes he ?_
  cases hform with
  | @braced digits hc hb =>
    subst hc
    have hout : BeginsOutOfRange (117 :: r) ↔ maxCodePoint < ofDigits 16 digits :=
      beginsOutOfRange_iff.trans ⟨fun ⟨_, h', hp⟩ => Option.some.inj (hb.symm.trans h') ▸ hp,
        fun hp => ⟨digits, hb, hp⟩⟩
    rw [hout, Escape.value]
    split
    · next hp => exact ⟨fun ⟨_, h⟩ => (nomatch h), fun h => absurd hp h⟩
    · next hp => exact ⟨fun _ => hp, fun _ => ⟨_, rfl⟩⟩
  | hex hb | single hb => exact iff_of_true ⟨_, rfl⟩ (not_beginsOutOfRange hb)
  | octal ho =>
    exact iff_of_true ⟨_, rfl⟩ (not_beginsOutOfRange (by rintro rfl; cases ho))
  | lineEnd hc => exact iff_of_true ⟨_, rfl⟩ (not_beginsOutOfRange (by rintro rfl; cases hc))
  | lineBreak hl => exact iff_of_true ⟨_, rfl⟩ (not_beginsOutOfRange (by rintro rfl; cases hl))

theorem cookFrom_eq : ∀ (k : Nat) (t : Text), cookFrom k t = cook (t.drop k)
  | 0, _ => rfl
  | k + 1, [] => rfl
  | k + 1, c :: r => by rw [cookFrom, cookFrom_eq k r, List.drop_succ_cons]

theorem cook_cons (hc : c ≠ 92) (r : Text) : cook (c :: r) = (do return c :: (← cook r)) := by
  rw [cook, cookFrom, if_neg hc]
  rfl

/-- What is behind a backslash is cooked as an escape, and then the rest. -/
theorem cook_escape {e : Escape} {n : Nat} (he : readEscape t = some (e, n)) :
    cook (92 :: t) = (do return (← e.value) ++ (← cook (t.drop n))) := by
  rw [cook, cookFrom, if_pos rfl, he]
  simp only [cookFrom_eq]

theorem cook_cons_ok_iff (hc : c ≠ 92) {v : Text} :
    cook (c :: r) = .ok v ↔ ∃ w, cook r = .ok w ∧ v = c :: w := by
  rw [cook_cons hc, bind_ok_iff]
  exact exists_congr fun w => and_congr_right fun _ =>
    ⟨fun h => (Except.ok.inj h).symm, fun h => congrArg _ h.symm⟩

theorem cook_escape_ok_iff {e : Escape} {n : Nat} (he : readEscape t = some (e, n)) {v : Text} :
    cook (92 :: t) = .ok v ↔ ∃ x y, e.value = .ok x ∧ cook (t.drop n) = .ok y ∧ v = x ++ y := by
  rw [cook_escape he, bind_ok_iff]
  refine exists_congr fun x => ?_
  rw [bind_ok_iff, exists_and_left]
  exact and_congr_right fun _ => exists_congr fun y => and_congr_right fun _ =>
    ⟨fun h => (Except.ok.inj h).symm, fun h => congrArg _ h.symm⟩

theorem cookable_cons (hc : c ≠ 92) : Cookable (c :: r) ↔ Cookable r := by
  constructor
  · rintro ⟨_, h⟩
    obtain ⟨w, hw, -⟩ := (cook_cons_ok_iff hc).1 h
    exact ⟨w, hw⟩
  · rintro ⟨w, hw⟩
    exact ⟨_, (cook_cons_ok_iff hc).2 ⟨w, hw, rfl⟩⟩

theorem cookable_append : ∀ {t : Text}, (∀ x ∈ t, x ≠ 92) → (Cookable (t ++ u) ↔ Cookable u)
  | [], _ => Iff.rfl
  | c :: _, h => (cookable_cons (h c List.mem_cons_self)).trans
      (cookable_append fun x hx => h x (List.mem_cons_of_mem _ hx))

theorem cookable_escape : Cookable (92 :: c :: r) ↔ ¬ BeginsOutOfRange (c :: r) ∧ Cookable r := by
  obtain ⟨e, n, he, hn, hv⟩ := escapes c r
  have hrest : Cookable r ↔ Cookable (r.drop n) := by
    have := cookable_append (u := r.drop n) hn
    rwa [List.take_append_drop] at this
  rw [← hv, hrest]
  constructor
  · rintro ⟨_, h⟩
    obtain ⟨x, y, hx, hy, -⟩ := (cook_escape_ok_iff he).1 h
    exact ⟨⟨x, hx⟩, y, hy⟩
  · rintro ⟨⟨x, hx⟩, y, hy⟩
    exact ⟨_, (cook_escape_ok_iff he).2 ⟨x, y, hx, hy, rfl⟩⟩

/-! ## Where cooking fails -/

/-- How many backslashes a text ends with. -/
def trailing (t : Text) : Nat := (t.reverse.takeWhile fun c => c == 92).length

/-- A text holds an escape that denotes no code point, and the backslash of it is not escaped: an
even number of backslashes stands right in front of it. -/
def MeetsOutOfRange (t : Text) : Prop :=
  ∃ before digits after, t = before ++ 92 :: 117 :: 123 :: digits ++ 125 :: after ∧
    trailing before % 2 = 0 ∧ OutOfRange digits

theorem trailing_cons : trailing (c :: t) =
    if trailing t = t.length ∧ c = 92 then t.length + 1 else trailing t := by
  unfold trailing
  rw [List.reverse_cons, List.takeWhile_append, List.length_reverse]
  split
  · next h =>
    rw [h]
    by_cases hc : c = 92
    · simp [hc]
    · simp [hc]
  · next h => simp [h]

theorem trailing_le : trailing t ≤ t.length := by
  unfold trailing
  exact Nat.le_trans (List.takeWhile_prefix _).length_le (Nat.le_of_eq List.length_reverse)

/-- A backslash and the character behind it make no difference to what is escaped later. -/
theorem trailing_escape : trailing (92 :: c :: t) % 2 = trailing t % 2 := by
  have hle := trailing_le (t := t)
  by_cases h : trailing t = t.length ∧ c = 92
  · have hc : trailing (c :: t) = t.length + 1 := by rw [trailing_cons, if_pos h]
    rw [trailing_cons, if_pos ⟨hc.trans List.length_cons.symm, rfl⟩, List.length_cons, h.1]
    omega
  · have hc : trailing (c :: t) = trailing t := by rw [trailing_cons, if_neg h]
    rw [trailing_cons, hc, List.length_cons, if_neg fun h => by omega]

/-- Where nothing is escaped, behind an even number of backslashes, what a text goes on with has a
property. -/
def Meets (P : Text → Prop) (t : Text) : Prop :=
  ∃ before after, t = before ++ after ∧ trailing before % 2 = 0 ∧ P after

section Meets

variable {P : Text → Prop}

theorem meets_nil : Meets P [] ↔ P [] := by
  constructor
  · rintro ⟨before, after, h, -, hp⟩
    obtain ⟨rfl, rfl⟩ := List.append_eq_nil_iff.1 h.symm
    exact hp
  · exact fun hp => ⟨[], [], rfl, rfl, hp⟩

theorem meets_cons (hc : c ≠ 92) : Meets P (c :: r) ↔ P (c :: r) ∨ Meets P r := by
  have hsame {before : Text} : trailing (c :: before) = trailing before := by
    rw [trailing_cons, if_neg fun h => hc h.2]
  constructor
  · rintro ⟨before, after, h, hb, hp⟩
    cases before with
    | nil => exact .inl (h ▸ hp)
    | cons b before =>
      obtain ⟨rfl, rfl⟩ := List.cons.inj h
      exact .inr ⟨before, after, rfl, hsame ▸ hb, hp⟩
  · rintro (hp | ⟨before, after, rfl, hb, hp⟩)
    · exact ⟨[], _, rfl, rfl, hp⟩
    · exact ⟨c :: before, after, rfl, hsame.symm ▸ hb, hp⟩

theorem meets_escape : Meets P (92 :: c :: r) ↔ P (92 :: c :: r) ∨ Meets P r := by
  constructor
  · rintro ⟨before, after, h, hb, hp⟩
    match before with
    | [] => exact .inl (h ▸ hp)
    | [b] =>
      obtain ⟨rfl, -⟩ := List.cons.inj h
      cases hb
    | b :: d :: before =>
      obtain ⟨rfl, ht⟩ := List.cons.inj h
      obtain ⟨rfl, rfl⟩ := List.cons.inj ht
      exact .inr ⟨before, after, rfl, trailing_escape ▸ hb, hp⟩
  · rintro (hp | ⟨before, after, rfl, hb, hp⟩)
    · exact ⟨[], _, rfl, rfl, hp⟩
    · exact ⟨92 :: c :: before, after, rfl, trailing_escape.symm ▸ hb, hp⟩

/-- A backslash at the end of a text escapes nothing. -/
theorem meets_backslash : Meets P [92] ↔ P [92] := by
  constructor
  · rintro ⟨before, after, h, hb, hp⟩
    match before with
    | [] => exact h ▸ hp
    | [b] =>
      obtain ⟨rfl, -⟩ := List.cons.inj h
      cases hb
    | b :: d :: before => cases (List.cons.inj h).2
  · exact fun hp => ⟨[], _, rfl, rfl, hp⟩

/-- What holds at none of some characters is not met there. -/
theorem meets_append : ∀ {t : Text}, (∀ x ∈ t, x ≠ 92 ∧ ∀ v, ¬ P (x :: v)) →
    (Meets P (t ++ u) ↔ Meets P u)
  | [], _ => Iff.rfl
  | c :: t, h => by
    obtain ⟨hc, hnot⟩ := h c List.mem_cons_self
    rw [List.cons_append, meets_cons hc, or_iff_right (hnot _),
      meets_append fun x hx => h x (List.mem_cons_of_mem _ hx)]

end Meets

/-- What stands here is an escape that denotes no code point. -/
def EscapesOutOfRange (t : Text) : Prop := ∃ u, t = 92 :: u ∧ BeginsOutOfRange u

theorem escapesOutOfRange_iff : EscapesOutOfRange (92 :: t) ↔ BeginsOutOfRange t :=
  ⟨fun ⟨_, h, hb⟩ => (List.cons.inj h).2 ▸ hb, fun hb => ⟨t, rfl, hb⟩⟩

theorem not_escapesOutOfRange (hc : c ≠ 92) : ¬ EscapesOutOfRange (c :: t) :=
  fun ⟨_, h, _⟩ => hc (List.cons.inj h).1

theorem meetsOutOfRange_iff : MeetsOutOfRange t ↔ Meets EscapesOutOfRange t := by
  constructor
  · rintro ⟨before, digits, after, h, hb, hd⟩
    exact ⟨before, _, by simpa using h, hb, _, rfl, digits, after, hd, rfl⟩
  · rintro ⟨before, _, rfl, hb, _, rfl, digits, after, hd, rfl⟩
    exact ⟨before, digits, after, by simp, hb, hd⟩

theorem cookable_iff_not_meets : ∀ t : Text, Cookable t ↔ ¬ Meets EscapesOutOfRange t
  | [] => by
    rw [meets_nil]
    exact iff_of_true ⟨[], rfl⟩ fun ⟨_, h, _⟩ => nomatch h
  | [c] => by
    by_cases hc : c = 92
    · subst hc
      rw [meets_backslash, escapesOutOfRange_iff]
      exact iff_of_true ⟨[92], rfl⟩ fun ⟨_, _, _, h⟩ => nomatch h
    · rw [cookable_cons hc, meets_cons hc, cookable_iff_not_meets [],
        or_iff_right (not_escapesOutOfRange hc)]
  | c :: d :: r => by
    by_cases hc : c = 92
    · subst hc
      rw [cookable_escape, meets_escape, cookable_iff_not_meets r, escapesOutOfRange_iff, not_or]
    · rw [cookable_cons hc, meets_cons hc, cookable_iff_not_meets (d :: r),
        or_iff_right (not_escapesOutOfRange hc)]

/-- Cooking succeeds unless there is an escape out of range that is not escaped itself. -/
theorem cookable_iff (t : Text) : Cookable t ↔ ¬ MeetsOutOfRange t :=
  (cookable_iff_not_meets t).trans (not_congr meetsOutOfRange_iff.symm)

theorem cook_error_iff : (∃ e, cook t = .error e) ↔ MeetsOutOfRange t := by
  have h := cookable_iff t
  unfold Cookable at h
  cases hc : cook t with
  | ok v =>
    rw [hc] at h
    exact ⟨fun ⟨_, h⟩ => (nomatch h), fun hm => absurd hm (h.1 ⟨v, rfl⟩)⟩
  | error e =>
    rw [hc] at h
    refine ⟨fun _ => Classical.byContradiction fun hm => ?_, fun _ => ⟨e, rfl⟩⟩
    obtain ⟨_, hv⟩ := h.2 hm
    cases hv

/-! ## Line ends -/

theorem joinLineEnds_cons (h : ¬ (c = 13 ∧ r.head? = some 10)) :
    joinLineEnds (c :: r) = c :: joinLineEnds r := by
  cases r with
  | nil => rfl
  | cons d r => rw [joinLineEnds, if_neg (by simpa using h)]

theorem joinLineEnds_append : ∀ {a : Text}, (∀ x ∈ a, x ≠ 13) →
    joinLineEnds (a ++ u) = a ++ joinLineEnds u
  | [], _ => rfl
  | x :: a, h => by
    rw [List.cons_append, joinLineEnds_cons fun hx => h x List.mem_cons_self hx.1,
      joinLineEnds_append fun y hy => h y (List.mem_cons_of_mem _ hy), List.cons_append]

/-- What a text starts with after its line ends have been joined, it starts with before. -/
theorem of_joinLineEnds_eq : ∀ {a t : Text}, (∀ x ∈ a, x ≠ 10) → joinLineEnds t = a ++ u →
    ∃ t', t = a ++ t'
  | [], t, _, _ => ⟨t, rfl⟩
  | x :: a, [], _, h => by cases h
  | x :: a, c :: r, ha, h => by
    by_cases hc : c = 13 ∧ r.head? = some 10
    · obtain ⟨rfl, hr⟩ := hc
      obtain ⟨r, rfl⟩ := List.head?_eq_some_iff.1 hr
      exact absurd (List.cons.inj h).1.symm (ha x List.mem_cons_self)
    · rw [joinLineEnds_cons hc] at h
      obtain ⟨rfl, ht⟩ := List.cons.inj h
      obtain ⟨t', rfl⟩ := of_joinLineEnds_eq (fun y hy => ha y (List.mem_cons_of_mem _ hy)) ht
      exact ⟨t', rfl⟩

theorem beginsOutOfRange_joinLineEnds :
    BeginsOutOfRange (c :: joinLineEnds r) ↔ BeginsOutOfRange (c :: r) := by
  have hplain {digits : Text} (hd : OutOfRange digits) :
      ∀ x ∈ 123 :: digits ++ [125], x ≠ 10 ∧ x ≠ 13 := by
    intro x hx
    rw [List.mem_append, List.mem_cons, List.mem_singleton] at hx
    rcases hx with (rfl | hx) | rfl
    · decide
    · have := hd.hex x hx
      constructor <;> rintro rfl <;> cases this
    · decide
  have hsplit (digits after : Text) :
      123 :: digits ++ 125 :: after = (123 :: digits ++ [125]) ++ after := by simp
  constructor
  · rintro ⟨digits, after, hd, h⟩
    obtain ⟨rfl, ht⟩ := List.cons.inj h
    obtain ⟨after, rfl⟩ := of_joinLineEnds_eq (fun x hx => (hplain hd x hx).1)
      (ht.trans (hsplit digits after))
    exact ⟨digits, after, hd, by simp⟩
  · rintro ⟨digits, after, hd, h⟩
    obtain ⟨rfl, ht⟩ := List.cons.inj h
    rw [ht.trans (hsplit digits after), joinLineEnds_append fun x hx => (hplain hd x hx).2]
    exact ⟨digits, joinLineEnds after, hd, by simp⟩

/-- Whether a text can be cooked does not depend on how its lines end. -/
theorem cookable_joinLineEnds : ∀ t : Text, Cookable (joinLineEnds t) ↔ Cookable t
  | [] => Iff.rfl
  | [_] => Iff.rfl
  | c :: d :: r => by
    by_cases hcd : c = 13 ∧ (d :: r).head? = some 10
    · obtain ⟨rfl, hd⟩ := hcd
      obtain rfl := Option.some.inj hd
      rw [show joinLineEnds (13 :: 10 :: r) = 10 :: joinLineEnds r from rfl,
        cookable_cons (by decide), cookable_cons (by decide), cookable_cons (by decide),
        cookable_joinLineEnds r]
    rw [joinLineEnds_cons hcd]
    by_cases hc : c = 92
    · subst hc
      by_cases hd : d = 13 ∧ r.head? = some 10
      · obtain ⟨rfl, hr⟩ := hd
        obtain ⟨r, rfl⟩ := List.head?_eq_some_iff.1 hr
        have hbegin {c : CodePoint} {r : Text} (hc : c ≠ 117) : ¬ BeginsOutOfRange (c :: r) :=
          fun h => hc h.head
        rw [show joinLineEnds (13 :: 10 :: r) = 10 :: joinLineEnds r from rfl, cookable_escape,
          cookable_escape, cookable_cons (c := 10) (by decide), cookable_joinLineEnds r]
        exact and_congr_left fun _ => iff_of_true (hbegin (by decide)) (hbegin (by decide))
      · rw [joinLineEnds_cons hd, cookable_escape, cookable_escape, cookable_joinLineEnds r,
          beginsOutOfRange_joinLineEnds]
    · rw [cookable_cons hc, cookable_cons hc, cookable_joinLineEnds (d :: r)]
termination_by t => t.length

end KeyTrace.Literal
