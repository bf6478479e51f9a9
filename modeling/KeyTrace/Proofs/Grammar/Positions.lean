/-
Where the lexemes of a program end: behind where they start, and within the text.

What is read past the end is the end mark, which belongs to no lexeme; so whatever
character a lexeme is known to have at some position, that position is in the text.
-/
import KeyTrace.Grammar.Lexeme
import Mathlib.Data.List.Forall2

namespace KeyTrace.Grammar

namespace Input

variable {i : Input} {p e n : Nat}

theorem lt_size_of_char_ne (h : i.char p ≠ endMark) : p < i.chars.size := by
  by_contra hp
  rw [char, Array.getD_eq_getD_getElem?, Array.getElem?_eq_none (by omega)] at h
  exact h rfl

/-- A character that a class has is a character of the text, unless the class has the end mark. -/
theorem lt_size_of_test {q : CodePoint → Bool} (hq : q endMark = false) (h : q (i.char p) = true) :
    p < i.chars.size := by
  refine lt_size_of_char_ne fun he => ?_
  rw [he, hq] at h
  cases h

theorem lt_size_of_char_eq {c : CodePoint} (hc : c ≠ endMark) (h : i.char p = c) :
    p < i.chars.size := lt_size_of_char_ne (h ▸ hc)

/-- A text that stands somewhere ends within the text. -/
theorem le_size_of_reads {t : Text} (ht : endMark ∉ t) (hp : p ≤ i.chars.size)
    (h : i.reads t p = true) : p + t.length ≤ i.chars.size := by
  induction t generalizing p with
  | nil => exact hp
  | cons c t ih =>
    rw [reads, Bool.and_eq_true, beq_iff_eq] at h
    rw [List.mem_cons, not_or] at ht
    have := ih ht.2 (lt_size_of_char_ne (h.1 ▸ Ne.symm ht.1)) h.2
    rw [List.length_cons]
    omega

theorem endMark_notMem_text (s : String) : endMark ∉ text s := by
  intro h
  obtain ⟨c, -, hc⟩ := List.mem_map.1 h
  have := c.valid
  change c.val.toNat = 0x110001 at hc
  rw [UInt32.isValidChar, Nat.isValidChar] at this
  omega

/-! ## Runs of characters -/

theorem skipFrom_le (hp : p ≤ i.chars.size) {q : CodePoint → Bool} (hq : q endMark = false) :
    ∀ n, p ≤ i.skipFrom q n p ∧ i.skipFrom q n p ≤ i.chars.size := by
  intro n
  induction n generalizing p with
  | zero => exact ⟨Nat.le_refl _, hp⟩
  | succ n ih =>
    rw [skipFrom]
    split
    · next h =>
      have := ih (p := p + 1) (lt_size_of_test hq h)
      omega
    · exact ⟨Nat.le_refl _, hp⟩

theorem skipWhile_le (hp : p ≤ i.chars.size) (q : CodePoint → Bool) :
    p ≤ i.skipWhile q p ∧ i.skipWhile q p ≤ i.chars.size :=
  skipFrom_le hp (by simp) _

/-- A character that is passed leaves something behind. -/
theorem lt_skipWhile {q : CodePoint → Bool} (hc : i.char p ≠ endMark) (hq : q (i.char p) = true) :
    p < i.skipWhile q p := by
  have hp := lt_size_of_char_ne hc
  have hn : i.chars.size + 1 - p = (i.chars.size - p) + 1 := by omega
  rw [skipWhile, hn, skipFrom, if_pos (by simp [hc, hq])]
  exact (skipFrom_le (p := p + 1) hp (by simp) _).1

/-- Every character that is passed has what it is passed for. -/
theorem test_of_skipFrom {q : CodePoint → Bool} {k : Nat} (hp : p ≤ k) (hk : k < i.skipFrom q n p) :
    q (i.char k) = true := by
  induction n generalizing p with
  | zero => exact absurd hk (Nat.not_lt.2 hp)
  | succ n ih =>
    rw [skipFrom] at hk
    split at hk
    · next h =>
      rcases Nat.eq_or_lt_of_le hp with rfl | hp
      · exact h
      · exact ih hp hk
    · exact absurd hk (Nat.not_lt.2 hp)

theorem test_of_skipWhile {q : CodePoint → Bool} {k : Nat} (hp : p ≤ k) (hk : k < i.skipWhile q p) :
    q (i.char k) = true :=
  (Bool.and_eq_true_iff.1 (test_of_skipFrom (q := fun c => c != endMark && q c) hp hk)).2

/-- The character that is not passed is not of those that are. -/
theorem test_skipFrom {q : CodePoint → Bool} (hq : q endMark = false) (hn : i.chars.size < n + p) :
    q (i.char (i.skipFrom q n p)) = false := by
  induction n generalizing p with
  | zero =>
    refine Bool.eq_false_iff.2 fun h => ?_
    have := lt_size_of_test hq h
    rw [skipFrom] at this
    omega
  | succ n ih =>
    rw [skipFrom]
    split
    · exact ih (by omega)
    · next h => exact Bool.eq_false_iff.2 h

/-- Where characters stop being passed, none is passed any more. -/
theorem skipWhile_skipWhile {q : CodePoint → Bool} :
    i.skipWhile q (i.skipWhile q p) = i.skipWhile q p := by
  have hstop := test_skipFrom (i := i) (n := i.chars.size + 1 - p) (p := p)
    (q := fun c => c != endMark && q c) (by simp) (by omega)
  rw [skipWhile, skipWhile]
  generalize i.skipFrom (fun c => c != endMark && q c) (i.chars.size + 1 - p) p = e at hstop
  cases i.chars.size + 1 - e with
  | zero => rfl
  | succ n => rw [skipFrom, hstop, if_neg Bool.false_ne_true]

/-! ## Blanks and comments -/

theorem blockEnd?_le (h : i.blockEnd? n p = some e) : p < e ∧ e ≤ i.chars.size := by
  induction n generalizing p with
  | zero => cases h
  | succ n ih =>
    rw [blockEnd?] at h
    split at h
    · cases h
    · split at h
      · next hc =>
        cases h
        rw [Bool.and_eq_true, beq_iff_eq, beq_iff_eq] at hc
        have := lt_size_of_char_eq (by decide) hc.2
        omega
      · have := ih h
        omega

theorem commentEnd?_le (h : i.commentEnd? p = some e) : p + 2 ≤ e ∧ e ≤ i.chars.size := by
  rw [commentEnd?] at h
  split at h
  · cases h
  · split at h
    · next hc =>
      cases h
      exact skipWhile_le (lt_size_of_char_eq (by decide) (beq_iff_eq.1 hc)) _
    · split at h
      · have := blockEnd?_le h
        omega
      · cases h

/-- From `p` to `q` there is nothing but blanks and comments, and no more of them at `q`. -/
inductive Gap (i : Input) : Nat → Nat → Prop
  | blanks {p : Nat} : i.commentEnd? (i.skipWhile isBlank p) = none →
      Gap i p (i.skipWhile isBlank p)
  | comment {p e q : Nat} : i.commentEnd? (i.skipWhile isBlank p) = some e → Gap i e q → Gap i p q

theorem Gap.le {q : Nat} (h : Gap i p q) (hp : p ≤ i.chars.size) : p ≤ q ∧ q ≤ i.chars.size := by
  induction h with
  | blanks _ => exact skipWhile_le hp _
  | comment he _ ih =>
    have := commentEnd?_le he
    have := skipWhile_le hp isBlank
    have := ih (by omega)
    omega

/-- At the end of a gap nothing is left to pass. -/
theorem Gap.skipTrivia_eq {q : Nat} (h : Gap i p q) (cs : List Node) :
    i.skipTrivia (n + 1) q cs = (q, cs) := by
  induction h with
  | @blanks p hq =>
    have hstop : i.skipWhile isBlank (i.skipWhile isBlank p) = i.skipWhile isBlank p :=
      skipWhile_skipWhile
    rw [skipTrivia]
    simp only [hstop, hq]
  | comment _ _ ih => exact ih

/-- A comment is a leaf, and lies within the text. -/
structure IsComment (i : Input) (m : Node) : Prop where
  role : m.role = .none
  kind : m.kind = .comment ∨ m.kind = .htmlComment
  children : m.allChildren = []
  nonempty : m.span.start < m.span.stop
  within : m.span.stop ≤ i.chars.size

/-- Passing blanks and comments crosses a gap; what is kept on the way are comments. -/
theorem skipTrivia_gap (hn : i.chars.size < n + p) (hp : p ≤ i.chars.size) {cs : List Node}
    (hcs : ∀ m ∈ cs, IsComment i m) : Gap i p (i.skipTrivia n p cs).1 ∧
      ∀ m ∈ (i.skipTrivia n p cs).2, IsComment i m := by
  induction n generalizing p cs with
  | zero => omega
  | succ n ih =>
    rw [skipTrivia]
    split
    · next h => exact ⟨.blanks h, hcs⟩
    · next e h =>
      have hle := commentEnd?_le h
      have hb := skipWhile_le hp isBlank
      have hcs' : ∀ m ∈ Node.mk .none .comment ⟨i.skipWhile isBlank p, e⟩ [] :: cs,
          IsComment i m := by
        intro m hm
        rcases List.mem_cons.1 hm with rfl | hm
        · exact ⟨rfl, .inl rfl, rfl, by simp only [Node.span]; omega, hle.2⟩
        · exact hcs m hm
      obtain ⟨hg, hc⟩ := ih (p := e) (by omega) hle.2 hcs'
      exact ⟨.comment h hg, hc⟩

/-- A place where a statement ends is within the gap that follows. -/
theorem ending?_gap {a : Ending} {q : Nat} (hg : Gap i p q) (hp : p ≤ i.chars.size)
    (h : i.ending? a n p = some e) : p ≤ e ∧ e ≤ q ∧ Gap i e q := by
  induction n generalizing p with
  | zero => cases h
  | succ n ih =>
    rw [ending?] at h
    split at h
    · cases h
      exact ⟨Nat.le_refl _, (hg.le hp).1, hg⟩
    · cases hg with
      | blanks hnone =>
        rw [hnone] at h
        cases h
      | comment he hg =>
        rw [he] at h
        have hc := commentEnd?_le he
        have hb := skipWhile_le hp isBlank
        obtain ⟨hl, hq, hg⟩ := ih hg hc.2 h
        exact ⟨by omega, hq, hg⟩

/-! ## Words and numbers -/

theorem unicodeEscapeEnd?_le (h : i.unicodeEscapeEnd? p = some e) :
    p + 2 < e ∧ e ≤ i.chars.size := by
  rw [unicodeEscapeEnd?] at h
  split at h
  · cases h
  · split at h
    · dsimp only at h
      split at h
      · next hc =>
        cases h
        rw [Bool.and_eq_true, decide_eq_true_eq, beq_iff_eq] at hc
        have := lt_size_of_char_eq (by decide) hc.2
        omega
      · cases h
    · split at h
      · next hc =>
        cases h
        rw [Bool.and_eq_true] at hc
        have := lt_size_of_test (q := isHexDigit) rfl hc.2
        omega
      · cases h

theorem wordTail_le (hp : p ≤ i.chars.size) : p ≤ i.wordTail n p ∧ i.wordTail n p ≤ i.chars.size := by
  induction n generalizing p with
  | zero => exact ⟨Nat.le_refl _, hp⟩
  | succ n ih =>
    rw [wordTail]
    split
    · next h =>
      have := ih (p := p + 1) (lt_size_of_test (q := isWordPart) rfl h)
      omega
    · split
      · next e h =>
        have hle := unicodeEscapeEnd?_le h
        have := ih hle.2
        omega
      · exact ⟨Nat.le_refl _, hp⟩

theorem wordEnd?_le (h : i.wordEnd? p = some e) : p < e ∧ e ≤ i.chars.size := by
  rw [wordEnd?] at h
  split at h
  · next hs =>
    cases h
    have := lt_size_of_test (q := isWordStart) rfl hs
    have := wordTail_le (i := i) (n := i.chars.size + 1 - p) (p := p + 1) (by omega)
    omega
  · obtain ⟨e', he, rfl⟩ := Option.map_eq_some_iff.1 h
    have hle := unicodeEscapeEnd?_le he
    have := wordTail_le (i := i) (n := i.chars.size + 1 - p) hle.2
    omega

section Digits

variable {q : CodePoint → Bool}

theorem digitsTail_le (hq : q endMark = false) (hp : p ≤ i.chars.size) :
    p ≤ i.digitsTail q n p ∧ i.digitsTail q n p ≤ i.chars.size := by
  induction n generalizing p with
  | zero => exact ⟨Nat.le_refl _, hp⟩
  | succ n ih =>
    rw [digitsTail]
    split
    · next h =>
      have := ih (p := p + 1) (lt_size_of_test hq h)
      omega
    · split
      · next h =>
        have := ih (p := p + 2) (lt_size_of_test hq (Bool.and_eq_true_iff.1 h).2)
        omega
      · exact ⟨Nat.le_refl _, hp⟩

theorem digitsEnd?_le (hq : q endMark = false) (h : i.digitsEnd? q p = some e) :
    p < e ∧ e ≤ i.chars.size := by
  rw [digitsEnd?] at h
  split at h
  · next hc =>
    cases h
    have hp := lt_size_of_test hq hc
    obtain ⟨n, hn⟩ : ∃ n, i.chars.size + 1 - p = n + 1 := ⟨i.chars.size - p, by omega⟩
    rw [hn, digitsTail, if_pos hc]
    exact digitsTail_le hq hp
  · cases h

end Digits

theorem exponentEnd_le (hp : p ≤ i.chars.size) :
    p ≤ i.exponentEnd p ∧ i.exponentEnd p ≤ i.chars.size := by
  rw [exponentEnd]
  split
  · dsimp only
    cases h : i.digitsEnd? isDigit _ with
    | none => exact ⟨Nat.le_refl _, hp⟩
    | some e =>
      have := digitsEnd?_le (q := isDigit) rfl h
      rw [Option.getD_some]
      split at this <;> omega
  · exact ⟨Nat.le_refl _, hp⟩

theorem bigEnd_le (hp : p < e ∧ e ≤ i.chars.size) :
    p < (if i.char e == cp 'n' then e + 1 else e) ∧
      (if i.char e == cp 'n' then e + 1 else e) ≤ i.chars.size := by
  split
  · next hc =>
    have := lt_size_of_char_eq (by decide) (beq_iff_eq.1 hc)
    omega
  · exact hp

/-- The end of a number in another base than ten. -/
theorem basedEnd?_le {q : CodePoint → Bool} (hq : q endMark = false)
    (h : (i.digitsEnd? q (p + 2)).map (fun e => if i.char e == cp 'n' then e + 1 else e) = some e) :
    p < e ∧ e ≤ i.chars.size := by
  obtain ⟨a, ha, rfl⟩ := Option.map_eq_some_iff.1 h
  have := digitsEnd?_le hq ha
  exact bigEnd_le (by omega)

/-- The end of a number whose first digits end somewhere. -/
theorem fractionEnd?_le {a : Nat} (ha : i.digitsEnd? isDigit p = some a)
    (h : (if i.char a == 46 then
        some (i.exponentEnd ((i.digitsEnd? isDigit (a + 1)).getD (a + 1)))
      else if i.exponentEnd a > a then some (i.exponentEnd a)
      else some (if i.char a == cp 'n' then a + 1 else a)) = some e) :
    p < e ∧ e ≤ i.chars.size := by
  have hle := digitsEnd?_le (q := isDigit) rfl ha
  split at h
  · next hdot =>
    cases h
    have hlt := lt_size_of_char_eq (by decide) (beq_iff_eq.1 hdot)
    cases hb : i.digitsEnd? isDigit (a + 1) with
    | none =>
      have := exponentEnd_le (i := i) (p := a + 1) hlt
      rw [Option.getD_none]
      omega
    | some b =>
      have hb := digitsEnd?_le (q := isDigit) rfl hb
      have := exponentEnd_le hb.2
      rw [Option.getD_some]
      omega
  · split at h
    · cases h
      have := exponentEnd_le hle.2
      omega
    · cases h
      exact bigEnd_le hle

/-- The end of a number in base ten. -/
theorem plainEnd?_le (h : (if isDigit (i.char p) then
      match i.digitsEnd? isDigit p with
      | none => none
      | some a =>
        if i.char a == 46 then
          some (i.exponentEnd ((i.digitsEnd? isDigit (a + 1)).getD (a + 1)))
        else if i.exponentEnd a > a then some (i.exponentEnd a)
        else some (if i.char a == cp 'n' then a + 1 else a)
      else if i.char p == 46 then (i.digitsEnd? isDigit (p + 1)).map i.exponentEnd
      else none) = some e) : p < e ∧ e ≤ i.chars.size := by
  split at h
  · split at h
    · cases h
    · next a ha => exact fractionEnd?_le ha h
  · split at h
    · obtain ⟨a, ha, rfl⟩ := Option.map_eq_some_iff.1 h
      have := digitsEnd?_le (q := isDigit) rfl ha
      have := exponentEnd_le this.2
      omega
    · cases h

theorem numberEnd?_le (h : i.numberEnd? p = some e) : p < e ∧ e ≤ i.chars.size := by
  unfold numberEnd? at h
  dsimp only at h
  split at h
  · split at h
    · exact basedEnd?_le rfl h
    · split at h
      · exact basedEnd?_le (by decide) h
      · split at h
        · exact basedEnd?_le rfl h
        · exact plainEnd?_le h
  · exact plainEnd?_le h

/-! ## Insides of literals -/

/-- A character that an escape other than a Unicode one may have behind its first. -/
def endsEscape (c : CodePoint) : Bool :=
  isHexDigit c || isOctalDigit c || c == 10 || c == 0x2028 || c == 0x2029

/-- An escape is a Unicode one, or there are at most two digits or a line end behind its first
character. -/
theorem escapeEnd?_cases (h : i.escapeEnd? p = some e) : i.char (p + 1) ≠ endMark ∧
    (i.char (p + 1) = 117 ∧ i.unicodeEscapeEnd? p = some e ∨ i.char (p + 1) ≠ 117 ∧
      (e = p + 2 ∨ e = p + 3 ∧ endsEscape (i.char (p + 2)) = true ∨
        e = p + 4 ∧ endsEscape (i.char (p + 2)) = true ∧ endsEscape (i.char (p + 3)) = true)) := by
  have hhex {c : CodePoint} (hc : isHexDigit c = true) : endsEscape c = true := by
    simp [endsEscape, hc]
  have hoctal {c : CodePoint} (hc : isOctalDigit c = true) : endsEscape c = true := by
    simp [endsEscape, hc]
  unfold escapeEnd? at h
  dsimp only at h
  split at h
  · cases h
  next hc =>
  rw [Bool.or_eq_true, not_or, beq_iff_eq] at hc
  refine ⟨hc.1, ?_⟩
  split at h
  · next hd =>
    cases h
    simp only [Bool.and_eq_true, Bool.or_eq_true, beq_iff_eq] at hd
    refine .inr ⟨by rcases hd.1 with h | h <;> rw [h] <;> decide, .inr (.inl ⟨rfl, ?_⟩)⟩
    rcases hd.2 with (h | h) | h <;> rw [h] <;> decide
  split at h
  · next hu => exact .inl ⟨beq_iff_eq.1 hu, h⟩
  next hu =>
  refine .inr ⟨fun h => hu (beq_iff_eq.2 h), ?_⟩
  split at h
  · split at h
    · next hd =>
      cases h
      rw [Bool.and_eq_true] at hd
      exact .inr (.inr ⟨rfl, hhex hd.1, hhex hd.2⟩)
    · cases h
  split at h
  · split at h
    · next hd =>
      split at h
      · next hd' =>
        cases h
        exact .inr (.inr ⟨rfl, hoctal hd, hoctal hd'⟩)
      · cases h
        exact .inr (.inl ⟨rfl, hoctal hd⟩)
    · cases h
      exact .inl rfl
  · cases h
    exact .inl rfl

theorem escapeEnd?_le (h : i.escapeEnd? p = some e) : p + 2 ≤ e ∧ e ≤ i.chars.size := by
  obtain ⟨hc, ⟨-, h⟩ | ⟨-, hend⟩⟩ := escapeEnd?_cases h
  · have := unicodeEscapeEnd?_le h
    omega
  · have := lt_size_of_char_ne hc
    rcases hend with rfl | ⟨rfl, hd⟩ | ⟨rfl, -, hd⟩
    · omega
    · have := lt_size_of_test (q := endsEscape) rfl hd
      omega
    · have := lt_size_of_test (q := endsEscape) rfl hd
      omega

theorem templateTextEnd?_le (h : i.templateTextEnd? n p = some e) : p ≤ e ∧ e ≤ i.chars.size := by
  induction n generalizing p with
  | zero => cases h
  | succ n ih =>
    unfold templateTextEnd? at h
    dsimp only at h
    split at h
    · next hc =>
      have hp := lt_size_of_char_ne (i := i) (p := p) fun hm => by simp [hm, endMark] at hc
      cases h
      omega
    · split at h
      · cases h
      · have := ih h
        omega

theorem regexClassEnd?_le (h : i.regexClassEnd? n p = some e) : p < e ∧ e ≤ i.chars.size := by
  induction n generalizing p with
  | zero => cases h
  | succ n ih =>
    unfold regexClassEnd? at h
    dsimp only at h
    split at h
    · next hc =>
      cases h
      have := lt_size_of_char_eq (by decide) (beq_iff_eq.1 hc)
      omega
    · split at h
      · split at h
        · cases h
        · have := ih h
          omega
      · split at h
        · cases h
        · have := ih h
          omega

theorem regexEnd?_lt (h : i.regexEnd? n p = some e) : p ≤ e ∧ e < i.chars.size := by
  induction n generalizing p with
  | zero => cases h
  | succ n ih =>
    unfold regexEnd? at h
    dsimp only at h
    split at h
    · next hc =>
      cases h
      exact ⟨Nat.le_refl _, lt_size_of_char_eq (by decide) (beq_iff_eq.1 hc)⟩
    · split at h
      · split at h
        · cases h
        · have := ih h
          omega
      · split at h
        · split at h
          · next a ha =>
            have := regexClassEnd?_le ha
            have := ih h
            omega
          · cases h
        · split at h
          · cases h
          · have := ih h
            omega

/-- JSX text that counts has a character at least. -/
theorem jsxTextEnd?_le {sawText atBreak : Bool} (hp : p ≤ i.chars.size)
    (h : i.jsxTextEnd? n p sawText atBreak = some e) :
    p ≤ e ∧ e ≤ i.chars.size ∧ (sawText = false → p < e) := by
  induction n generalizing p sawText atBreak with
  | zero => cases h
  | succ n ih =>
    unfold jsxTextEnd? at h
    dsimp only at h
    split at h
    · split at h
      · next hs =>
        cases h
        exact ⟨Nat.le_refl _, hp, fun hf => by rw [hf] at hs; cases hs⟩
      · cases h
    · next hc =>
      simp only [Bool.or_eq_true, not_or, beq_iff_eq] at hc
      have hlt := lt_size_of_char_ne hc.1.1.1.1.1.1
      split at h
      · have := ih (p := p + 1) hlt h
        omega
      · have := ih (p := p + 1) hlt h
        omega

theorem referenceEnd?_le (h : i.referenceEnd? p = some e) : p < e ∧ e ≤ i.chars.size := by
  have hrun {q : CodePoint → Bool} {start most : Nat} (hs : p < start)
      (h : (if i.skipWhile q start > start && i.skipWhile q start - start ≤ most
        && i.char (i.skipWhile q start) == 59 then some (i.skipWhile q start + 1) else none) =
        some e) : p < e ∧ e ≤ i.chars.size := by
    split at h
    · next hc =>
      cases h
      simp only [Bool.and_eq_true, decide_eq_true_eq, beq_iff_eq] at hc
      have := lt_size_of_char_eq (by decide) hc.2
      omega
    · cases h
  unfold referenceEnd? at h
  dsimp only at h
  split at h
  · cases h
  · split at h
    · split at h
      · exact hrun (by omega) h
      · exact hrun (by omega) h
    · exact hrun (by omega) h

end Input

end KeyTrace.Grammar
