/-
What is written as JSON reads as the value that was written (`read?_render`).

A part of a document is read wherever it stands (`Reads`): after white space, and before
anything that does not go on with a number.
-/
import KeyTrace.Proofs.Output.Reader
import KeyTrace.Proofs.Text.Pieces
import Mathlib.Algebra.Order.BigOperators.Group.List
import Mathlib.Algebra.Order.Group.Nat

namespace KeyTrace.Json

open Quoted (hexDigit hexDigits)

section Bodies

theorem isHexDigit_hexDigit (n : Nat) : isHexDigit (hexDigit (n % 16)) = true := by
  have h : ∀ k < 16, isHexDigit (hexDigit k) = true := by decide
  exact h _ (Nat.mod_lt n (by decide))

theorem digitValue_hexDigit (n : Nat) : digitValue (hexDigit (n % 16)) = n % 16 := by
  have h : ∀ k < 16, digitValue (hexDigit k) = k := by decide
  exact h _ (Nat.mod_lt n (by decide))

theorem ofDigits_append_singleton (base : Nat) (l : Text) (c : CodePoint) :
    ofDigits base (l ++ [c]) = ofDigits base l * base + digitValue c := by
  simp [ofDigits]

theorem ofDigits_hexDigits (w n : Nat) : ofDigits 16 (hexDigits w n) = n % 16 ^ w := by
  induction w generalizing n with
  | zero => simp [hexDigits, ofDigits, Nat.mod_one]
  | succ w ih =>
    rw [hexDigits, ofDigits_append_singleton, ih, digitValue_hexDigit, Nat.pow_succ,
      Nat.mul_comm (16 ^ w) 16, Nat.mod_mul]
    omega

theorem hexDigits_four (n : Nat) :
    hexDigits 4 n = [hexDigit (n / 16 / 16 / 16 % 16), hexDigit (n / 16 / 16 % 16),
      hexDigit (n / 16 % 16), hexDigit (n % 16)] := rfl

theorem readBody_unitEscape (u : Nat) (rest : Text) :
    readBody (unitEscape u ++ rest) = (readBody rest).map fun p => (u % 0x10000 :: p.1, p.2) := by
  have hval := ofDigits_hexDigits 4 u
  rw [hexDigits_four] at hval
  have hform : unitEscape u ++ rest = 92 :: 117 :: (hexDigits 4 u ++ rest) := rfl
  rw [hform, hexDigits_four]
  simp [readBody, isHexDigit_hexDigit, hval]

theorem readBody_unitEscapes (us : List Nat) (rest : Text) :
    readBody (us.flatMap unitEscape ++ rest)
      = (readBody rest).map fun p => (us.map (· % 0x10000) ++ p.1, p.2) := by
  induction us with
  | nil => simp
  | cons u us ih =>
    rw [List.flatMap_cons, List.append_assoc, readBody_unitEscape, ih, Option.map_map]
    rfl

theorem readBody_shortEscape {e u : CodePoint} (h : shortEscape? e = some u) (rest : Text) :
    readBody (92 :: e :: rest) = (readBody rest).map fun p => (u :: p.1, p.2) := by
  have he : e ≠ 117 := fun he => by
    have hu : shortEscape? 117 = none := by decide
    rw [he, hu] at h
    cases h
  have hq : (92 : CodePoint) ≠ 34 := by decide
  rw [readBody.eq_def]
  simp only [if_neg hq, if_neg he, h, Option.bind_some, if_true]

theorem readBody_plain {c : CodePoint} (h : 32 ≤ c) (hq : c ≠ 34) (hb : c ≠ 92) (rest : Text) :
    readBody (c :: rest) = (readBody rest).map fun p => (c :: p.1, p.2) := by
  rw [readBody.eq_def]
  simp only [if_neg hq, if_neg hb, if_neg (Nat.not_lt.2 h)]

theorem units_map_of_lt {c : CodePoint} (h : c < 0x10000) :
    (units c).map (· % 0x10000) = [c] := by
  simp [units, h, Nat.mod_eq_of_lt h]

/-- A written character reads as its units. -/
theorem readBody_encodeOne (c : CodePoint) (rest : Text) :
    readBody (encodeOne c ++ rest)
      = (readBody rest).map fun p => ((units c).map (· % 0x10000) ++ p.1, p.2) := by
  have short {e : CodePoint} (h : shortEscape? e = some c) (hc : c < 0x10000) :
      readBody (92 :: e :: rest)
        = (readBody rest).map fun p => ((units c).map (· % 0x10000) ++ p.1, p.2) := by
    rw [readBody_shortEscape h, units_map_of_lt hc]
    rfl
  unfold encodeOne
  split
  next h => rcases h with rfl | rfl <;> exact short rfl (by decide)
  next hmark =>
    split_ifs with h10 h13 h9 h12 h8 hplain
    · subst h10; exact short rfl (by decide)
    · subst h13; exact short rfl (by decide)
    · subst h9; exact short rfl (by decide)
    · subst h12; exact short rfl (by decide)
    · subst h8; exact short rfl (by decide)
    · have hlt : c < 0x10000 := lt_of_lt_of_le hplain.2 (by decide)
      rw [List.singleton_append, units_map_of_lt hlt,
        readBody_plain hplain.1 (fun h => hmark (.inl h)) (fun h => hmark (.inr h))]
      rfl
    · exact readBody_unitEscapes (units c) rest

/-- A written string reads as its units. -/
theorem readBody_encodeString (t rest : Text) :
    readBody (t.flatMap encodeOne ++ 34 :: rest) = some (unitsOf t, rest) := by
  induction t with
  | nil =>
    rw [List.flatMap_nil, List.nil_append, readBody.eq_def]
    simp only [if_true]
    rfl
  | cons c t ih =>
    rw [List.flatMap_cons, List.append_assoc, readBody_encodeOne, ih]
    rfl

end Bodies

section Numbers

theorem decimal_eq_map (n : Nat) : decimal n = (Nat.toDigits 10 n).map Char.toNat := by
  rw [decimal, text, Nat.toString_eq_repr, Nat.repr_eq_ofList_toDigits, String.toList_ofList]

theorem decimal_of_lt {n : Nat} (h : n < 10) : decimal n = [48 + n] := by
  have hdigit : ∀ k < 10, (Nat.digitChar k).toNat = 48 + k := by decide
  rw [decimal_eq_map, Nat.toDigits_eq_if (by decide), if_pos h, List.map_singleton, hdigit n h]

/-- The digits of a number, the last one apart. -/
theorem decimal_of_le {n : Nat} (h : 10 ≤ n) :
    decimal n = decimal (n / 10) ++ [48 + n % 10] := by
  have hdigit : ∀ k < 10, (Nat.digitChar k).toNat = 48 + k := by decide
  rw [decimal_eq_map, decimal_eq_map, Nat.toDigits_eq_if (by decide), if_neg (by omega),
    List.map_append, List.map_singleton, hdigit _ (Nat.mod_lt n (by decide))]

/-- From a number without its last digit to the number. -/
theorem decimal_induct {motive : Nat → Prop} (digit : ∀ n < 10, motive n)
    (more : ∀ n, 10 ≤ n → motive (n / 10) → motive n) (n : Nat) : motive n := by
  induction n using Nat.strongRecOn with
  | _ n ih =>
    by_cases h : n < 10
    · exact digit n h
    · exact more n (by omega) (ih (n / 10) (by omega))

theorem isDigit_add {k : Nat} (h : k < 10) : isDigit (48 + k) = true := by
  have hall : ∀ k < 10, isDigit (48 + k) = true := by decide
  exact hall k h

theorem isDigit_of_mem_decimal (n : Nat) : ∀ c ∈ decimal n, isDigit c = true := by
  induction n using decimal_induct with
  | digit n h =>
    rw [decimal_of_lt h]
    exact fun c hc => List.mem_singleton.1 hc ▸ isDigit_add h
  | more n h ih =>
    intro c hc
    rw [decimal_of_le h] at hc
    rcases List.mem_append.1 hc with hc | hc
    · exact ih c hc
    · exact List.mem_singleton.1 hc ▸ isDigit_add (Nat.mod_lt n (by decide))

theorem ofDigits_decimal (n : Nat) : ofDigits 10 (decimal n) = n := by
  have hdigit {k : Nat} (h : k < 10) : digitValue (48 + k) = k := by
    simp [digitValue, isDigit_add h]
  induction n using decimal_induct with
  | digit n h =>
    rw [decimal_of_lt h, ← List.nil_append [48 + n], ofDigits_append_singleton, hdigit h]
    simp [ofDigits]
  | more n h ih =>
    rw [decimal_of_le h, ofDigits_append_singleton, ih, hdigit (Nat.mod_lt n (by decide))]
    omega

/-- No zero stands in front of other digits. -/
theorem decimal_head? (n : Nat) (hn : n ≠ 0) : ∃ c ∈ (decimal n).head?, c ≠ 48 := by
  induction n using decimal_induct with
  | digit n h =>
    rw [decimal_of_lt h]
    exact ⟨48 + n, rfl, fun h48 => hn (Nat.add_left_cancel h48)⟩
  | more n h ih =>
    obtain ⟨c, hc, hne⟩ := ih (by omega)
    rw [decimal_of_le h]
    exact ⟨c, List.mem_head?_append_of_mem_head? hc, hne⟩

/-- What comes next is no digit, so that a number in front of it ends there. -/
def Ends (rest : Text) : Prop := ∀ c ∈ rest.head?, isDigit c = false

theorem ends_nil : Ends [] := fun _ h => by cases h

theorem ends_cons {c : CodePoint} (h : isDigit c = false) (t : Text) : Ends (c :: t) := by
  intro d hd
  cases hd
  exact h

theorem readNumber_decimal (n : Nat) {rest : Text} (h : Ends rest) :
    readNumber (decimal n ++ rest) = some (n, rest) := by
  have htake : (decimal n ++ rest).takeWhile isDigit = decimal n := by
    rw [List.takeWhile_append_of_pos (isDigit_of_mem_decimal n)]
    cases rest with
    | nil => simp
    | cons c t => simp [h c rfl]
  have hdrop : (decimal n ++ rest).dropWhile isDigit = rest := by
    rw [List.dropWhile_append_of_pos (isDigit_of_mem_decimal n)]
    cases rest with
    | nil => rfl
    | cons c t => simp [h c rfl]
  have hform : ¬ (decimal n = [] ∨ (decimal n).head? = some 48 ∧ 1 < (decimal n).length) := by
    by_cases hn : n = 0
    · subst hn; decide
    · obtain ⟨c, hc, hne⟩ := decimal_head? n hn
      rintro (hnil | ⟨hzero, -⟩)
      · rw [hnil] at hc
        cases hc
      · rw [hzero] at hc
        cases hc
        exact hne rfl
  simp only [readNumber, htake, hdrop, if_neg hform, ofDigits_decimal]

end Numbers

section Parts

/-- White space only. -/
def Spaces (t : Text) : Prop := ∀ c ∈ t, isSpace c = true

theorem skipSpace_append {sp : Text} (h : Spaces sp) (t : Text) :
    skipSpace (sp ++ t) = skipSpace t := List.dropWhile_append_of_pos h

theorem skipSpace_cons {c : CodePoint} (h : isSpace c = false) (t : Text) :
    skipSpace (c :: t) = c :: t := by
  simp [skipSpace, h]

theorem spaces_newline (layout : Layout) (level : Nat) : Spaces (layout.newline level) := by
  cases layout with
  | oneLine => exact fun c h => by cases h
  | indented w =>
    intro c hc
    rcases List.mem_cons.1 hc with rfl | hc
    · rfl
    · rw [List.eq_of_mem_replicate hc]
      rfl

/-- Between two parts stands a comma, and then white space. -/
theorem separator_eq (layout : Layout) (level : Nat) :
    ∃ sp, Spaces sp ∧ layout.separator level = 44 :: sp := by
  cases layout with
  | oneLine => exact ⟨[32], fun c hc => List.mem_singleton.1 hc ▸ rfl, rfl⟩
  | indented w => exact ⟨_, spaces_newline (.indented w) level, rfl⟩

theorem isDigit_of_isSpace {c : CodePoint} (h : isSpace c = true) : isDigit c = false := by
  simp only [isSpace, Bool.or_eq_true, beq_iff_eq] at h
  rcases h with ((rfl | rfl) | rfl) | rfl <;> rfl

theorem isSpace_of_isDigit {c : CodePoint} (h : isDigit c = true) : isSpace c = false := by
  cases hs : isSpace c with
  | false => rfl
  | true =>
    rw [isDigit_of_isSpace hs] at h
    cases h

theorem ends_append {sp t : Text} (h : Spaces sp) (ht : Ends t) : Ends (sp ++ t) := by
  cases sp with
  | nil => exact ht
  | cons c sp => exact ends_cons (isDigit_of_isSpace (h c List.mem_cons_self)) _

variable {α : Type} {item : Text → Option (α × Text)} {close : CodePoint}

/-- A part is read as a value wherever it stands. -/
def Reads (item : Text → Option (α × Text)) (part : Text) (a : α) : Prop :=
  ∀ sp rest, Spaces sp → Ends rest → item (sp ++ part ++ rest) = some (a, rest)

/-- A part starts with a character that is neither white space nor the closing bracket. -/
def Opens (close : CodePoint) (part : Text) : Prop :=
  ∃ c t, part = c :: t ∧ isSpace c = false ∧ c ≠ close

theorem Opens.join {p : Text} (h : Opens close p) (sep : Text) (ps : List Text) :
    Opens close (Text.join sep (p :: ps)) := by
  obtain ⟨c, t, rfl, hspace, hne⟩ := h
  cases ps with
  | nil => exact ⟨c, t, rfl, hspace, hne⟩
  | cons q qs => exact ⟨c, _, rfl, hspace, hne⟩

/-- Parts that are not empty are no more than the characters of them all. -/
theorem length_le_join {p : Text} (hp : p ≠ []) (sep : Text) (hsep : sep ≠ []) (ps : List Text) :
    (p :: ps).length ≤ (Text.join sep (p :: ps)).length := by
  have hpos : 0 < p.length := List.length_pos_iff.2 hp
  have hgaps : ps.length ≤ ps.length * sep.length :=
    Nat.le_mul_of_pos_right _ (List.length_pos_iff.2 hsep)
  rw [Text.length_join (by simp), List.map_cons, List.sum_cons]
  simp only [List.length_cons, Nat.add_sub_cancel]
  omega

/-- Parts with commas between them are read one by one: what follows a part is a comma or the
bracket, and neither goes on with a number. -/
theorem readParts_join {parts : List Text} {as : List α} {gap : Text} (hgap : Spaces gap)
    (hclose : isSpace close = false) (hdigit : isDigit close = false) (hcomma : close ≠ 44)
    (hreads : List.Forall₂ (Reads item) parts as) (hne : parts ≠ []) {steps : Nat}
    (hsteps : parts.length ≤ steps)
    {sp₁ sp₂ : Text} (h₁ : Spaces sp₁) (h₂ : Spaces sp₂) (rest : Text) :
    readParts item close steps (sp₁ ++ Text.join (44 :: gap) parts ++ (sp₂ ++ close :: rest))
      = some (as, rest) := by
  have hend : Ends (sp₂ ++ close :: rest) := ends_append h₂ (ends_cons hdigit rest)
  have hskip : skipSpace (sp₂ ++ close :: rest) = close :: rest := by
    rw [skipSpace_append h₂, skipSpace_cons hclose]
  induction hreads generalizing steps sp₁ with
  | nil => exact absurd rfl hne
  | @cons p a ps as hp hps ih =>
    obtain ⟨steps, rfl⟩ : ∃ k, steps = k + 1 := ⟨steps - 1, by
      rw [List.length_cons] at hsteps; omega⟩
    cases hps with
    | nil =>
      rw [Text.join, readParts, hp _ _ h₁ hend]
      simp only [Option.bind_some, hskip, if_true]
    | @cons q b ps as hq hps =>
      have hrest (u : Text) : sp₁ ++ Text.join (44 :: gap) (p :: q :: ps) ++ u
          = sp₁ ++ p ++ 44 :: (gap ++ Text.join (44 :: gap) (q :: ps) ++ u) := by
        simp [Text.join_cons_cons]
      rw [hrest, readParts, hp _ _ h₁ (ends_cons rfl _)]
      simp only [Option.bind_some, skipSpace_cons (c := 44) rfl, if_neg hcomma.symm, if_true]
      rw [ih (by simp) (by simpa using hsteps) hgap]
      rfl

/-- What stands between brackets is read part by part. -/
theorem readEnclosed_enclose {parts : List Text} {as : List α} (layout : Layout) (level : Nat)
    (left : CodePoint) (hclose : isSpace close = false) (hdigit : isDigit close = false)
    (hcomma : close ≠ 44) (hreads : List.Forall₂ (Reads item) parts as)
    (hopens : ∀ p ∈ parts, Opens close p) (rest : Text) :
    ∃ t, enclose layout level left close parts = left :: t ∧
      readEnclosed item close (t ++ rest) = some (as, rest) := by
  cases hreads with
  | nil =>
    refine ⟨[close], rfl, ?_⟩
    simp [readEnclosed, skipSpace_cons hclose]
  | @cons p a parts as hp hps =>
    obtain ⟨gap, hgap, hsep⟩ := separator_eq layout (level + 1)
    have h₁ := spaces_newline layout (level + 1)
    have h₂ := spaces_newline layout level
    have hopen := hopens p List.mem_cons_self
    have hne : p ≠ [] := by
      rintro rfl
      obtain ⟨_, _, h, -⟩ := hopen
      cases h
    obtain ⟨c, t, hinside, hspace, hc⟩ := hopen.join (44 :: gap) parts
    refine ⟨layout.newline (level + 1) ++ Text.join (44 :: gap) (p :: parts)
      ++ (layout.newline level ++ [close]), ?_, ?_⟩
    · rw [← hsep]
      simp [enclose]
    · rw [List.append_assoc _ _ rest, List.append_assoc _ _ rest, List.singleton_append]
      have hsteps (before after : Text) : (p :: parts).length
          ≤ (before ++ Text.join (44 :: gap) (p :: parts) ++ after).length := by
        have hlength := length_le_join hne (44 :: gap) (by simp) parts
        rw [List.length_append, List.length_append]
        omega
      have hread := readParts_join hgap hclose hdigit hcomma (.cons hp hps) (by simp)
        (hsteps (layout.newline (level + 1)) (layout.newline level ++ close :: rest)) h₁ h₂ rest
      rw [readEnclosed, hread, hinside, List.append_assoc, skipSpace_append h₁, List.cons_append,
        skipSpace_cons hspace]
      exact if_neg hc

/-- A part is shorter than what it is enclosed in. -/
theorem length_lt_enclose {parts : List Text} {p : Text} (hp : p ∈ parts) (layout : Layout)
    (level : Nat) (left right : CodePoint) :
    p.length < (enclose layout level left right parts).length := by
  have hne : parts ≠ [] := List.ne_nil_of_mem hp
  have hsum : p.length ≤ (parts.map List.length).sum :=
    List.single_le_sum (fun _ _ => Nat.zero_le _) _ (List.mem_map_of_mem hp)
  have hform : enclose layout level left right parts
      = [left] ++ layout.newline (level + 1) ++ Text.join (layout.separator (level + 1)) parts
        ++ layout.newline level ++ [right] := by
    cases parts with
    | nil => exact absurd rfl hne
    | cons q qs => rfl
  rw [hform]
  simp only [List.length_append, List.length_singleton, Text.length_join hne]
  omega

end Parts

section Values

theorem renderItems_eq (layout : Layout) (level : Nat) :
    ∀ l : List Json, renderItems layout level l = l.map (render layout level)
  | [] => rfl
  | j :: l => by rw [renderItems, renderItems_eq layout level l, List.map_cons]

theorem renderFields_eq (layout : Layout) (level : Nat) :
    ∀ l : List (Text × Json), renderFields layout level l = l.map (renderField layout level)
  | [] => rfl
  | f :: l => by rw [renderFields, renderFields_eq layout level l, List.map_cons]

theorem encodeNumber_negSucc (n : Nat) : encodeNumber (Int.negSucc n) = 45 :: decimal (n + 1) := by
  have h : toString (Int.negSucc n) = "-" ++ toString (n + 1) := rfl
  rw [encodeNumber, h, text, String.toList_append, List.map_append]
  rfl

theorem encodeString_eq (t : Text) : encodeString t = 34 :: (t.flatMap encodeOne ++ [34]) := rfl

theorem enclose_opens (layout : Layout) (level : Nat) (left right : CodePoint) (parts : List Text) :
    ∃ t, enclose layout level left right parts = left :: t := by
  cases parts with
  | nil => exact ⟨_, rfl⟩
  | cons p ps => exact ⟨_, rfl⟩

theorem decimal_opens (n : Nat) : ∃ c t, decimal n = c :: t ∧ isDigit c = true := by
  induction n using decimal_induct with
  | digit n h => exact ⟨_, _, decimal_of_lt h, isDigit_add h⟩
  | more n h ih =>
    obtain ⟨c, t, hn, hc⟩ := ih
    exact ⟨c, _, by rw [decimal_of_le h, hn, List.cons_append], hc⟩

/-- A value starts with a character that is neither white space nor a closing bracket. -/
theorem render_opens (layout : Layout) (level : Nat) (j : Json) (close : CodePoint)
    (hclose : close ∈ [93, 125]) : Opens close (render layout level j) := by
  have of {c : CodePoint} {t p : Text} (h : p = c :: t)
      (hc : isSpace c = false ∧ c ≠ 93 ∧ c ≠ 125) : Opens close p := by
    refine ⟨c, t, h, hc.1, ?_⟩
    rcases List.mem_cons.1 hclose with rfl | h
    · exact hc.2.1
    · rw [List.mem_singleton.1 h]
      exact hc.2.2
  have hdigit : ∀ c, isDigit c = true → isSpace c = false ∧ c ≠ 93 ∧ c ≠ 125 := by
    intro c hc
    refine ⟨isSpace_of_isDigit hc, ?_, ?_⟩ <;>
    · rintro rfl
      cases hc
  cases j with
  | null => exact of rfl (by decide)
  | bool b => cases b <;> exact of rfl (by decide)
  | number n =>
    cases n with
    | ofNat n =>
      obtain ⟨c, t, h, hc⟩ := decimal_opens n
      exact of h (hdigit c hc)
    | negSucc n => exact of (encodeNumber_negSucc n) (by decide)
  | string t => exact of rfl (by decide)
  | array items =>
    obtain ⟨t, h⟩ := enclose_opens layout level 91 93 (renderItems layout (level + 1) items)
    exact of (by rw [render, h]) (by decide)
  | object fields =>
    obtain ⟨t, h⟩ := enclose_opens layout level 123 125 (renderFields layout (level + 1) fields)
    exact of (by rw [render, h]) (by decide)

theorem skipSpace_part {p t sp : Text} {c : CodePoint} (hsp : Spaces sp) (hp : p = c :: t)
    (hc : isSpace c = false) (rest : Text) : skipSpace (sp ++ p ++ rest) = c :: (t ++ rest) := by
  rw [List.append_assoc, skipSpace_append hsp, hp, List.cons_append, skipSpace_cons hc]

theorem reads_null (depth : Nat) : Reads (readValue (depth + 1)) (text "null") .null := by
  intro sp rest hsp _
  rw [readValue, skipSpace_part hsp (p := text "null") (t := text "ull") rfl rfl]
  rfl

theorem reads_bool (b : Bool) (depth : Nat) :
    Reads (readValue (depth + 1)) (text (if b then "true" else "false")) (.bool b) := by
  intro sp rest hsp _
  cases b with
  | true =>
    rw [if_pos rfl, readValue, skipSpace_part hsp (p := text "true") (t := text "rue") rfl rfl]
    rfl
  | false =>
    rw [if_neg Bool.false_ne_true, readValue,
      skipSpace_part hsp (p := text "false") (t := text "alse") rfl rfl]
    rfl

theorem reads_number (n : Int) (depth : Nat) :
    Reads (readValue (depth + 1)) (encodeNumber n) (.number n) := by
  intro sp rest hsp hrest
  cases n with
  | ofNat n =>
    obtain ⟨c, t, h, hc⟩ := decimal_opens n
    have hform : encodeNumber (Int.ofNat n) = c :: t := h
    have hno : ∀ d, isDigit d = false → c ≠ d := by
      rintro d hd rfl
      rw [hc] at hd
      cases hd
    rw [readValue, skipSpace_part hsp hform (isSpace_of_isDigit hc)]
    simp only [if_neg (hno 34 rfl), if_neg (hno 91 rfl), if_neg (hno 123 rfl), if_neg (hno 45 rfl),
      if_pos hc]
    rw [← List.cons_append, ← h, readNumber_decimal n hrest]
    rfl
  | negSucc n =>
    rw [readValue, skipSpace_part hsp (encodeNumber_negSucc n) rfl]
    have h34 : (45 : CodePoint) ≠ 34 := by decide
    have h91 : (45 : CodePoint) ≠ 91 := by decide
    have h123 : (45 : CodePoint) ≠ 123 := by decide
    simp only [if_neg h34, if_neg h91, if_neg h123, if_true]
    rw [readNumber_decimal _ hrest]
    rfl

theorem reads_string (t : Text) (depth : Nat) :
    Reads (readValue (depth + 1)) (encodeString t) (.string (textAsRead t)) := by
  intro sp rest hsp _
  rw [readValue, skipSpace_part hsp (encodeString_eq t) rfl]
  simp only [if_true, List.append_assoc, List.singleton_append, readBody_encodeString]
  rfl

theorem reads_field {value : Text → Option (Json × Text)} {p : Text} {j : Json}
    (h : Reads value p j) (name : Text) :
    Reads (readField value) (encodeString name ++ text ": " ++ p) (textAsRead name, j) := by
  intro sp rest hsp hrest
  have hform : sp ++ (encodeString name ++ text ": " ++ p) ++ rest
      = sp ++ [34] ++ (name.flatMap encodeOne ++ 34 :: (58 :: ([32] ++ p ++ rest))) := by
    simp [encodeString, text]
  have hvalue := h [32] rest (fun c hc => List.mem_singleton.1 hc ▸ rfl) hrest
  rw [hform, readField, skipSpace_part hsp (c := 34) (t := []) rfl rfl]
  simp only [Text.after?, if_true, Option.bind_some, List.nil_append, readBody_encodeString,
    skipSpace_cons (c := 58) rfl]
  rw [hvalue]
  rfl

theorem reads_array {parts : List Text} {as : List Json} {depth : Nat} (layout : Layout)
    (level : Nat) (hreads : List.Forall₂ (Reads (readValue depth)) parts as)
    (hopens : ∀ p ∈ parts, Opens 93 p) :
    Reads (readValue (depth + 1)) (enclose layout level 91 93 parts) (.array as) := by
  intro sp rest hsp _
  obtain ⟨t, ht, hread⟩ :=
    readEnclosed_enclose layout level 91 rfl rfl (by decide) hreads hopens rest
  have h34 : (91 : CodePoint) ≠ 34 := by decide
  rw [readValue, skipSpace_part hsp ht rfl]
  simp only [if_neg h34, if_true, hread]
  rfl

theorem reads_object {parts : List Text} {as : List (Text × Json)} {depth : Nat} (layout : Layout)
    (level : Nat) (hreads : List.Forall₂ (Reads (readField (readValue depth))) parts as)
    (hopens : ∀ p ∈ parts, Opens 125 p) :
    Reads (readValue (depth + 1)) (enclose layout level 123 125 parts) (.object as) := by
  intro sp rest hsp _
  obtain ⟨t, ht, hread⟩ :=
    readEnclosed_enclose layout level 123 rfl rfl (by decide) hreads hopens rest
  have h34 : (123 : CodePoint) ≠ 34 := by decide
  have h91 : (123 : CodePoint) ≠ 91 := by decide
  rw [readValue, skipSpace_part hsp ht rfl]
  simp only [if_neg h34, if_neg h91, if_true, hread]
  rfl

/-- A written value is read wherever it stands, by a reader that goes deep enough. -/
theorem reads_render (layout : Layout) (j : Json) :
    ∀ level depth, (render layout level j).length ≤ depth →
      Reads (readValue depth) (render layout level j) (asRead j) := by
  -- No value is empty, so a reader that goes as deep as it is long goes one deeper than its parts.
  have deep {level : Nat} {j : Json} (h : ∀ d, (render layout level j).length ≤ d + 1 →
      Reads (readValue (d + 1)) (render layout level j) (asRead j)) :
      ∀ depth, (render layout level j).length ≤ depth →
        Reads (readValue depth) (render layout level j) (asRead j) := by
    intro depth hlen
    obtain ⟨c, t, hform, -⟩ := render_opens layout level j 93 (by decide)
    obtain ⟨d, rfl⟩ : ∃ d, depth = d + 1 := by
      rw [hform, List.length_cons] at hlen
      exact ⟨depth - 1, by omega⟩
    exact h d hlen
  induction j using induct with
  | null => exact fun _ => deep fun d _ => reads_null d
  | bool b => exact fun _ => deep fun d _ => reads_bool b d
  | number n => exact fun _ => deep fun d _ => reads_number n d
  | string t => exact fun _ => deep fun d _ => reads_string t d
  | array items ih =>
    refine fun level => deep fun d hlen => ?_
    rw [render, renderItems_eq] at hlen ⊢
    rw [asRead, itemsAsRead_eq]
    refine reads_array layout level ?_ fun p hp => ?_
    · rw [List.forall₂_map_left_iff, List.forall₂_map_right_iff, List.forall₂_same]
      intro j hj
      have hlt := length_lt_enclose (List.mem_map_of_mem (f := render layout (level + 1)) hj)
        layout level 91 93
      exact ih j hj _ d (by omega)
    · obtain ⟨j, -, rfl⟩ := List.mem_map.1 hp
      exact render_opens layout _ j _ (by decide)
  | object fields ih =>
    refine fun level => deep fun d hlen => ?_
    rw [render, renderFields_eq] at hlen ⊢
    rw [asRead, fieldsAsRead_eq]
    refine reads_object layout level ?_ fun p hp => ?_
    · rw [List.forall₂_map_left_iff, List.forall₂_map_right_iff, List.forall₂_same]
      rintro ⟨name, j⟩ hf
      have hlt := length_lt_enclose (List.mem_map_of_mem (f := renderField layout (level + 1)) hf)
        layout level 123 125
      rw [renderField] at hlt ⊢
      simp only [List.length_append] at hlt
      exact reads_field (ih _ hf _ d (by dsimp only; omega)) name
    · obtain ⟨⟨name, j⟩, -, rfl⟩ := List.mem_map.1 hp
      exact ⟨34, _, by rw [renderField, encodeString_eq]; rfl, rfl, by decide⟩

/-- What a value could begin with is no capital letter. -/
theorem not_starter_of_isUpperLetter {c : CodePoint} (h : isUpperLetter c = true) :
    isSpace c = false ∧ isDigit c = false ∧
      c ∉ [34, 91, 123, 45] ++ wordValues.flatMap fun w => w.1.take 1 := by
  have hall : ∀ d < 91, isUpperLetter d = true → isSpace d = false ∧ isDigit d = false ∧
      d ∉ [34, 91, 123, 45] ++ wordValues.flatMap fun w => w.1.take 1 := by decide
  refine hall c ?_ h
  simp only [isUpperLetter, Bool.and_eq_true, decide_eq_true_eq] at h
  exact Nat.lt_succ_of_le h.2

/-- No value begins with a capital letter. -/
theorem read?_of_isUpperLetter {c : CodePoint} (h : isUpperLetter c = true) (t : Text) :
    read? (c :: t) = none := by
  obtain ⟨hspace, hdigit, hother⟩ := not_starter_of_isUpperLetter h
  have hne : c ≠ 34 ∧ c ≠ 91 ∧ c ≠ 123 ∧ c ≠ 45 ∧ c ≠ 110 ∧ c ≠ 116 ∧ c ≠ 102 := by
    simpa [wordValues, text] using hother
  obtain ⟨h34, h91, h123, h45, h110, h116, h102⟩ := hne
  have hword : ∀ w ∈ wordValues, Text.after? w.1 (c :: t) = none := by
    simp [wordValues, text, Text.after?, h110.symm, h116.symm, h102.symm]
  rw [read?, List.length_cons, readValue, skipSpace_cons hspace]
  simp only [if_neg h34, if_neg h91, if_neg h123, if_neg h45, hdigit, Bool.false_eq_true, if_false]
  rw [List.findSome?_eq_none_iff.2 fun w hw => by rw [hword w hw]; rfl]
  rfl

/-- **What is written reads as the value that was written**, white space at the end apart. -/
theorem read?_render (layout : Layout) (level : Nat) (j : Json) {sp : Text} (hsp : Spaces sp) :
    read? (render layout level j ++ sp) = some (asRead j) := by
  have hends : Ends sp := by
    have h := ends_append hsp ends_nil
    rwa [List.append_nil] at h
  have hlen : (render layout level j).length ≤ (render layout level j ++ sp).length := by
    rw [List.length_append]
    omega
  have hread := reads_render layout j level _ hlen [] sp (fun _ h => by cases h) hends
  rw [List.nil_append] at hread
  have hskip : skipSpace sp = [] := by
    have h := skipSpace_append hsp []
    rwa [List.append_nil] at h
  rw [read?, hread, Option.bind_some, hskip]
  rfl

end Values

end KeyTrace.Json
