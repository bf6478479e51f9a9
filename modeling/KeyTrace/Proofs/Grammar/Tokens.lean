/-
What the parsers of tokens do to the frames of the constructs around them.

A parser that only looks leaves the cursor where it is. A token moves it, and stands where it is
looked for, or its end is looked up first; behind a token come blanks and comments, unless the text
goes on at once. A statement may also end with no token at all.
-/
import KeyTrace.Proofs.Grammar.Runs

namespace KeyTrace.Grammar

open KeyTrace.Grammar.Parser

section Looking

variable {α β : Type}

instance (a : α) : Looks (pure a : Parser α) where
  eq h := by cases h; rfl

instance (p : Parser α) (k : α → Parser β) [hp : Looks p] [hk : ∀ a, Looks (k a)] :
    Looks (p >>= k) where
  eq h := by
    obtain ⟨a, c₁, ha, h⟩ := Parser.bind_eq_some h
    rw [(hk a).eq h, hp.eq ha]

instance (b : Prop) [Decidable b] (p q : Parser α) [hp : Looks p] [hq : Looks q] :
    Looks (if b then p else q) where
  eq h := by
    split at h
    · exact hp.eq h
    · exact hq.eq h

instance (b : Bool) : Looks (Parser.guard b) where
  eq h := by
    unfold Parser.guard at h
    split at h <;> cases h
    rfl

instance (p : Parser α) : Looks (ahead p) where
  eq h := by cases h; rfl

instance : Looks dialect where
  eq h := by cases h; rfl

instance (k : Nat) : Looks (peek k) where
  eq h := by cases h; rfl

instance (a : Char) : Looks (atSign a) where
  eq h := by cases h; rfl

instance : Looks peekWord where
  eq h := by
    unfold Parser.peekWord at h
    split at h <;> cases h <;> rfl

instance (t : Text) : Looks (atKeyword t) where
  eq h := by cases h; rfl

instance (e : Input.Ending) : Looks (mayEnd e) where
  eq h := by cases h; rfl

instance : Looks sameLine where
  eq h := by cases h; rfl

end Looking

section Tokens

variable {i : Input} {st : Stance}

/-- Moving behind what has been read. -/
theorem step_advanceFrom {moves : Bool} {e : Nat} {c c' : Cursor} (hc : Fits i st c) (he : c.pos ≤ e)
    (hs : e ≤ i.chars.size) (hm : moves = true → c.pos < e) (h : advance e i c = some ((), c')) :
    Step i .settled moves [] c c' := by
  obtain ⟨hg, hcs⟩ := Input.skipTrivia_gap (n := i.chars.size + 1) (p := e) (by omega) hs hc.comments
  unfold Parser.advance at h
  generalize i.skipTrivia (i.chars.size + 1) e c.comments = r at h hg hcs
  cases h
  have hle := hg.le hs
  have := hc.order
  exact ⟨⟨hle.1, hle.2, hcs, hg⟩, by simp only; omega, by simp only; omega, hm, trivial, nofun⟩

/-- Moving behind a token. -/
theorem step_advance {e : Nat} {c c' : Cursor} (hc : Fits i st c) (he : c.pos < e)
    (hs : e ≤ i.chars.size) (h : advance e i c = some ((), c')) :
    Step i .settled true [] c c' := step_advanceFrom hc (Nat.le_of_lt he) hs (fun _ => he) h

theorem step_advanceRaw {e : Nat} {c c' : Cursor} (hc : Fits i st c) (he : c.pos < e)
    (hs : e ≤ i.chars.size) (h : advanceRaw e i c = some ((), c')) :
    Step i .tight true [] c c' := by
  cases h
  have := hc.order
  exact ⟨⟨Nat.le_refl _, hs, hc.comments, rfl⟩, by simp only; omega, by simp only; omega,
    fun _ => he, trivial, nofun⟩

section Lexemes

variable {β : Type} {st₁ st' : Stance} {f : Frame} {fs : List Frame} {fs' : β → List Frame}
  {q : Parser Nat} {k : Nat → Parser β}

/-- The end of a token that stands at the cursor is looked up. -/
def FindsEnd (i : Input) (q : Parser Nat) : Prop :=
  ∀ c e c', c.pos ≤ i.chars.size → q i c = some (e, c') → c' = c ∧ c.pos < e ∧ e ≤ i.chars.size

theorem Run.lexemeOf {go : Nat → Parser Unit}
    (hgo : ∀ e c c', Fits i st c → c.pos < e → e ≤ i.chars.size → go e i c = some ((), c') →
      Step i st₁ true [] c c') (hq : FindsEnd i q)
    (hk : ∀ e, Run i st₁ (f.grown true [] :: fs) (k e) st' fs') :
    Run i st (f :: fs) (q >>= fun e => go e >>= fun _ => k e) st' fs' := by
  intro c b c' hc hs h
  obtain ⟨e, c₁, he, h⟩ := Parser.bind_eq_some h
  obtain ⟨hc₁, hlt, hle⟩ := hq c e c₁ hc.within he
  rw [hc₁] at h
  obtain ⟨_, c₂, ha, h⟩ := Parser.bind_eq_some h
  have hstep := hgo e c c₂ hc hlt hle ha
  obtain ⟨hc', hl, hp, hs'⟩ := hk e c₂ b c' hstep.fits (hs.grown hc hstep) h
  exact ⟨hc', Nat.le_trans hstep.last_le hl, Nat.le_trans hstep.pos_le hp, hs'⟩

/-- A token whose end is looked up first. -/
theorem Run.lexeme (hq : FindsEnd i q)
    (hk : ∀ e, Run i .settled (f.grown true [] :: fs) (k e) st' fs') :
    Run i st (f :: fs) (q >>= fun e => advance e >>= fun _ => k e) st' fs' :=
  .lexemeOf (fun _ _ _ => step_advance) hq hk

theorem Run.lexemeRaw (hq : FindsEnd i q)
    (hk : ∀ e, Run i .tight (f.grown true [] :: fs) (k e) st' fs') :
    Run i st (f :: fs) (q >>= fun e => advanceRaw e >>= fun _ => k e) st' fs' :=
  .lexemeOf (fun _ _ _ => step_advanceRaw) hq hk

end Lexemes

theorem Takes.symbolOf {t : Text} (ht : 0 < t.length) (hm : endMark ∉ t) :
    Takes i st .settled true (symbol t) := by
  intro c a c' hc h
  unfold Parser.symbol at h
  split at h
  · next hr =>
    exact step_advance hc (by omega) (Input.le_size_of_reads hm hc.within hr) h
  · cases h

theorem Takes.symbolRawOf {t : Text} (ht : 0 < t.length) (hm : endMark ∉ t) :
    Takes i st .tight true (symbolRaw t) := by
  intro c a c' hc h
  unfold Parser.symbolRaw at h
  split at h
  · next hr =>
    exact step_advanceRaw hc (by omega) (Input.le_size_of_reads hm hc.within hr) h
  · cases h

theorem Takes.symbol {s : String} (hs : 0 < (text s).length) :
    Takes i st .settled true (symbol (text s)) := .symbolOf hs (Input.endMark_notMem_text s)

theorem Takes.symbolRaw {s : String} (hs : 0 < (text s).length) :
    Takes i st .tight true (symbolRaw (text s)) := .symbolRawOf hs (Input.endMark_notMem_text s)

theorem Takes.sign {a : Char} : Takes i st .settled true (sign a) := by
  intro c u c' hc h
  unfold Parser.sign at h
  split at h
  · next ha =>
    have hm : cp a ≠ endMark := fun he => Input.endMark_notMem_text (String.singleton a)
      (by rw [text, ← he]; simp)
    exact step_advance hc (by omega) (Input.lt_size_of_char_eq hm (beq_iff_eq.1 ha)) h
  · cases h

theorem Takes.word : Takes i st .settled true word := by
  intro c t c' hc h
  unfold Parser.word at h
  split at h
  · cases h
  · next e he =>
    have hle := Input.wordEnd?_le he
    obtain ⟨⟨_, c₁⟩, ha, h⟩ := Option.map_eq_some_iff.1 h
    cases h
    rw [nodes_text]
    exact step_advance hc hle.1 hle.2 ha

theorem Takes.keyword {t : Text} : Takes i st .settled true (keyword t) := by
  intro c a c' hc h
  unfold Parser.keyword at h
  split at h
  · cases h
  · split at h
    · cases h
    · next e he =>
      have hle := Input.wordEnd?_le he
      split at h
      · exact step_advance hc hle.1 hle.2 h
      · cases h

/-- Going on past blanks and comments. -/
theorem Takes.settle : Takes i .tight .settled false settle := by
  intro c a c' hc h
  have hl : c.last = c.pos := hc.between
  obtain ⟨hg, hm⟩ := Input.skipTrivia_gap (n := i.chars.size + 1) (p := c.pos) (by omega) hc.within
    hc.comments
  unfold Parser.settle at h
  generalize i.skipTrivia (i.chars.size + 1) c.pos c.comments = r at h hg hm
  cases h
  have hle := hg.le hc.within
  exact ⟨⟨hl ▸ hle.1, hle.2, hm, hl ▸ hg⟩, Nat.le_refl _, hle.1, nofun, trivial, nofun⟩

/-- Past blanks and comments nothing is left to pass. -/
theorem settle_eq {c c' : Cursor} (hc : Fits i .settled c) (h : settle i c = some ((), c')) :
    c' = c := by
  unfold Parser.settle at h
  rw [Input.Gap.skipTrivia_eq hc.between] at h
  cases h
  rfl

/-- A statement may end without a semicolon. -/
theorem Takes.endHere {e : Input.Ending} : MayRead i (endHere e) := by
  intro c a c' hc h
  unfold Parser.endHere at h
  split at h
  · next p hp =>
    cases h
    obtain ⟨hl, hp, hg⟩ := Input.ending?_gap hc.between (Nat.le_trans hc.order hc.within) hp
    exact ⟨⟨hp, hc.within, hc.comments, hg⟩, hl, Nat.le_refl _, nofun, trivial, nofun⟩
  · cases h

theorem Takes.semicolon {e : Input.Ending} : MayRead i (semicolon e) := by
  intro c a c' hc h
  unfold Parser.semicolon at h
  split at h
  · next r hr =>
    cases h
    exact Takes.endHere c a c' hc hr
  · exact Takes.sign.weaken c a c' hc h

end Tokens

end KeyTrace.Grammar
