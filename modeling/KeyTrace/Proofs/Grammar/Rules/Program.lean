/-
The rules tied together: whatever is asked for is read, and so is a whole program.
-/
import KeyTrace.Grammar.Parse
import KeyTrace.Proofs.Grammar.Rules.Statements

namespace KeyTrace.Grammar

open KeyTrace.Grammar.Parser

/-- The parser of goals reads them at any depth. -/
instance subReads_parseGoal (i : Input) : ∀ depth, SubReads i (parseGoal depth)
  | 0 => ⟨fun _ _ _ _ _ _ h => (nomatch h), fun _ _ _ _ _ h => (nomatch h)⟩
  | depth + 1 => by
    have := subReads_parseGoal i depth
    refine ⟨fun g hg => ?_, fun st => .jsxElementGoal⟩
    cases g with
    | operation ctx level assertions => exact .operationGoal
    | statement => exact .statementGoal
    | block inExpression => exact .blockGoal
    | type => exact .typeExpression
    | pattern members => exact .patternGoal
    | jsxElement => exact absurd rfl hg

namespace Takes

variable {i : Input} {st : Stance} {sub : Sub}

theorem interpreterLine : Takes i st .settled true interpreterLine := by
  unfold Grammar.interpreterLine
  have hlook : Looks (fun (i : Input) c => some (i.char 0 == 0xFEFF, c)) := ⟨fun h => by cases h; rfl⟩
  have hline : Takes i .tight .settled false
      ((fun i c => some (i.skipWhile (· != 10) c.pos, c)) >>= advance) := by
    intro c u c' hc h
    obtain ⟨e, c₁, he, h⟩ := Parser.bind_eq_some h
    cases he
    have hle := Input.skipWhile_le hc.within (· != 10)
    exact step_advanceFrom hc hle.1 hle.2 nofun h
  have hrest {start s : Nat} : Run i .tight [⟨start, true, false, []⟩, .fresh s] (do
      (fun i c => some (i.skipWhile (· != 10) c.pos, c) : Parser Nat) >>= advance
      node .clause start []) .settled fun n : Node => [⟨s, true, false, [n]⟩] :=
    .read hline fun _ => .node rfl rfl
  refine .of_run fun s => .here fun start => .look fun _ => .look fun _ =>
    .read (.symbolRaw (by decide)) fun _ => ?_
  exact hrest

theorem hashBang {c c' : Cursor} {r : Option Node} (hc : Fits i .tight c) (h : option? (do
      let _ ← (fun i c =>
        some ((), if i.char c.pos == 0xFEFF then { c with pos := c.pos + 1 } else c) : Parser Unit)
      Grammar.interpreterLine) i c = some (r, c')) :
    Step i .settled false r.toList c c' ∨ r = none ∧ c' = c := by
  unfold Parser.option? at h
  split at h
  · next n c₁ hn =>
    cases h
    obtain ⟨_, c₂, hb, hn⟩ := Parser.bind_eq_some hn
    have hmark : Fits i .loose c₂ ∧ c₂.last = c.last ∧ c.pos ≤ c₂.pos := by
      have hlast : c.last = c.pos := hc.between
      cases hb
      split
      · next hb =>
        have hlt := Input.lt_size_of_char_eq (by decide) (beq_iff_eq.1 hb)
        exact ⟨⟨Nat.le_trans hc.order (Nat.le_succ _), hlt, hc.comments, trivial⟩, rfl, Nat.le_succ _⟩
      · exact ⟨hc.loosen, rfl, Nat.le_refl _⟩
    have hstep := interpreterLine _ _ _ hmark.1 hn
    exact .inl ⟨hstep.fits, hmark.2.1 ▸ hstep.last_le, Nat.le_trans hmark.2.2 hstep.pos_le, nofun,
      hstep.row.mono hmark.2.2 (Nat.le_refl _), hstep.whole⟩
  · cases h
    exact .inr ⟨rfl, rfl⟩

end Takes

/-- What a program that is read consists of. -/
theorem program_sound {i : Input} {sub : Sub} [SubReads i sub] {n : Node} {c : Cursor}
    (h : program sub i ⟨0, 0, []⟩ = some (n, c)) :
    ∃ cs, n = .mk .none .program ⟨0, i.chars.size⟩ cs ∧ Row 0 cs i.chars.size ∧
      (∀ m ∈ cs, Whole i m) ∧ ∀ m ∈ c.comments, i.IsComment m := by
  have hstart : Fits i .tight ⟨0, 0, []⟩ := ⟨Nat.le_refl _, Nat.zero_le _, nofun, rfl⟩
  unfold program at h
  obtain ⟨line, c₁, hline, h⟩ := Parser.bind_eq_some h
  obtain ⟨_, c₂, hsettle, h⟩ := Parser.bind_eq_some h
  have hhead : Step i .settled false line.toList ⟨0, 0, []⟩ c₂ := by
    rcases Takes.hashBang hstart hline with hs | ⟨rfl, rfl⟩
    · exact settle_eq hs.fits hsettle ▸ hs
    · exact Takes.settle _ _ c₂ hstart hsettle
  obtain ⟨ss, c₃, hss, h⟩ := Parser.bind_eq_some h
  have hall := hhead.trans (Takes.statements c₂ ss c₃ hhead.fits hss)
  obtain ⟨_, _, hp, h⟩ := Parser.bind_eq_some h
  cases Looks.eq hp
  obtain ⟨_, _, hg, h⟩ := Parser.bind_eq_some h
  cases Looks.eq hg
  cases h
  rw [nodes_list] at hall
  exact ⟨_, rfl, hall.row.mono (Nat.le_refl _) (Nat.le_trans hall.fits.order hall.fits.within),
    hall.whole, hall.fits.comments⟩

end KeyTrace.Grammar
