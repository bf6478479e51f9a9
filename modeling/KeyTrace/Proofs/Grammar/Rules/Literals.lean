/-
The rules for literals. The inside of a string or template is cut into pieces right
where it is read, so nothing of it is missed.
-/
import KeyTrace.Grammar.Literals
import KeyTrace.Proofs.Grammar.Rules.Goals

namespace KeyTrace.Grammar

open KeyTrace.Grammar.Parser

namespace Input

variable {i : Input} {p e n : Nat}

/-- The parts of a string are pieces that cover it up to the closing quote. -/
theorem stringParts?_covers {quote : CodePoint} (hq : quote ≠ endMark) {ps : List Node}
    (h : i.stringParts? quote n p = some (ps, e)) :
    Covers i p ps e ∧ e < i.chars.size ∧ ∀ c ∈ ps, IsPiece i c := by
  induction n generalizing p ps with
  | zero => cases h
  | succ n ih =>
    unfold stringParts? at h
    dsimp only at h
    split at h
    · next hc =>
      cases h
      exact ⟨rfl, lt_size_of_char_eq hq (beq_iff_eq.1 hc), nofun⟩
    · split at h
      · next hc =>
        split at h
        · cases h
        · next a ha =>
          obtain ⟨⟨ps, e⟩, hps, h⟩ := Option.map_eq_some_iff.1 h
          cases h
          obtain ⟨hcov, he, hp⟩ := ih hps
          have hle := escapeEnd?_le ha
          have hpiece : IsPiece i (.mk .none .escapeSequence ⟨p, a⟩ []) :=
            ⟨rfl, by simp only [Node.span]; omega, .inr ⟨rfl, beq_iff_eq.1 hc, ha⟩⟩
          exact ⟨⟨rfl, .inl hpiece, hcov⟩, he, List.forall_mem_cons.2 ⟨hpiece, hp⟩⟩
      · split at h
        · next hlt =>
          obtain ⟨⟨ps, e⟩, hps, h⟩ := Option.map_eq_some_iff.1 h
          cases h
          obtain ⟨hcov, he, hp⟩ := ih hps
          have hpiece : IsPiece i (.mk .none .stringFragment ⟨p, i.skipWhile (fun c => c != quote &&
              c != 92 && c != 13 && c != 10 && c != 0) p⟩ []) := by
            refine ⟨rfl, hlt, .inl ⟨rfl, fun k hk hke h92 => ?_⟩⟩
            have := test_of_skipWhile hk hke
            simp [h92] at this
          exact ⟨⟨rfl, .inl hpiece, hcov⟩, he, List.forall_mem_cons.2 ⟨hpiece, hp⟩⟩
        · cases h

/-- The text of a template stops at a backslash. -/
theorem char_ne_of_templateTextEnd? {k : Nat} (h : i.templateTextEnd? n p = some e) (hp : p ≤ k)
    (hk : k < e) : i.char k ≠ 92 := by
  induction n generalizing p with
  | zero => cases h
  | succ n ih =>
    unfold templateTextEnd? at h
    dsimp only at h
    split at h
    · cases h
      omega
    · next hc =>
      split at h
      · cases h
      · rcases Nat.eq_or_lt_of_le hp with rfl | hp
        · intro h92
          simp [h92] at hc
        · exact ih h hp

end Input

namespace Takes

variable {i : Input} {st : Stance} {sub : Sub}

theorem numberLiteral : Takes i st .settled true numberLiteral := by
  unfold Grammar.numberLiteral
  refine .of_run fun s => .here fun start => .lexeme (fun c e c' _ h => ?_) fun e =>
    .node rfl (by simp)
  obtain ⟨a, ha, h⟩ := Option.map_eq_some_iff.1 h
  cases h
  exact ⟨rfl, Input.numberEnd?_le ha⟩

theorem stringLiteral : Takes i st .settled true stringLiteral := by
  intro c n c' hc h
  unfold Grammar.stringLiteral at h
  obtain ⟨_, _, h₀, h⟩ := Parser.bind_eq_some h
  cases h₀
  obtain ⟨quote, _, hq, h⟩ := Parser.bind_eq_some h
  cases Looks.eq hq
  obtain ⟨_, c₁, hg, h⟩ := Parser.bind_eq_some h
  have hquote : quote ≠ endMark := by
    rintro rfl
    cases hg
  cases Looks.eq hg
  obtain ⟨⟨parts, close⟩, c₁, hp, h⟩ := Parser.bind_eq_some h
  obtain ⟨_, hparts, hp⟩ := Option.map_eq_some_iff.1 hp
  cases hp
  obtain ⟨hcov, hlt, hpieces⟩ := Input.stringParts?_covers hquote hparts
  have hle := (hcov.row fun c hc => (hpieces c hc).nonempty).1
  obtain ⟨_, c₂, ha, h⟩ := Parser.bind_eq_some h
  have hstep := step_advance (e := close + 1) hc (by omega) hlt ha
  have hlast : c₂.last = close + 1 := by cases ha; rfl
  cases h
  rw [hlast]
  exact { hstep with
    row := ⟨Nat.le_refl _, Nat.le_of_eq hlast.symm, trivial⟩
    whole := fun m hm => by
      rw [nodes_node, List.mem_singleton] at hm
      exact hm ▸ whole_string hcov hpieces hlt }

theorem regexLiteral : Takes i st .settled true regexLiteral := by
  unfold Grammar.regexLiteral
  refine .of_run fun s => .here fun start => .read (.symbolRaw (by decide)) fun _ => ?_
  intro c n c' hc hs h
  obtain ⟨_, _, h₀, h⟩ := Parser.bind_eq_some h
  cases h₀
  obtain ⟨close, _, h₀, h⟩ := Parser.bind_eq_some h
  obtain ⟨_, hclose, h₀⟩ := Option.map_eq_some_iff.1 h₀
  cases h₀
  have hle := Input.regexEnd?_lt hclose
  obtain ⟨_, _, hg, h⟩ := Parser.bind_eq_some h
  cases Looks.eq hg
  obtain ⟨_, _, h₀, h⟩ := Parser.bind_eq_some h
  cases h₀
  obtain ⟨_, c₁, ha, h⟩ := Parser.bind_eq_some h
  have hstop := Input.skipWhile_le (i := i) (p := close + 1) hle.2 isLowerLetter
  have hstep := step_advance hc (by omega) hstop.2 ha
  obtain ⟨hc', hl, hp, hs'⟩ := Run.node rfl (by simp) c₁ n c' hstep.fits (hs.grown hc hstep) h
  exact ⟨hc', Nat.le_trans hstep.last_le hl, Nat.le_trans hstep.pos_le hp, hs'⟩

/-! ## Templates -/

/-- A part of a template stands right between two cursors. -/
def IsPart (i : Input) (c c' : Cursor) (n : Node) : Prop :=
  n.span = ⟨c.pos, c'.pos⟩ ∧ (IsPiece i n ∨ n.kind = .templateSubstitution)

/-- A part of a template that is no substitution is a piece of it. -/
theorem templateText_part {c c' : Cursor} {n : Node} (hc : Fits i st c)
    (h : templateText i c = some (n, c')) :
    Step i .tight true [n] c c' ∧ n.span = ⟨c.pos, c'.pos⟩ ∧ IsPiece i n := by
  unfold Grammar.templateText at h
  obtain ⟨_, _, h₀, h⟩ := Parser.bind_eq_some h
  cases h₀
  obtain ⟨a, _, ha, h⟩ := Parser.bind_eq_some h
  have hchar : i.char c.pos = a := by cases ha; rfl
  cases Looks.eq ha
  obtain ⟨stop, _, h₀, h⟩ := Parser.bind_eq_some h
  obtain ⟨_, hstop, h₀⟩ := Option.map_eq_some_iff.1 h₀
  cases h₀
  obtain ⟨_, _, hg, h⟩ := Parser.bind_eq_some h
  have hlt : c.pos < stop := by
    unfold Parser.guard at hg
    split at hg
    · next hlt => exact of_decide_eq_true hlt
    · cases hg
  cases Looks.eq hg
  obtain ⟨_, c₁, hadv, h⟩ := Parser.bind_eq_some h
  have hpiece : stop ≤ i.chars.size ∧ IsPiece i (.mk .none
      (if a == 92 then .escapeSequence else .stringFragment) ⟨c.pos, stop⟩ []) := by
    split at hstop
    · next ha =>
      rw [if_pos ha]
      exact ⟨(Input.escapeEnd?_le hstop).2, rfl, hlt, .inr ⟨rfl, hchar.trans (beq_iff_eq.1 ha), hstop⟩⟩
    · next ha =>
      rw [if_neg ha]
      exact ⟨(Input.templateTextEnd?_le hstop).2, rfl, hlt,
        .inl ⟨rfl, fun k hk hke => Input.char_ne_of_templateTextEnd? hstop hk hke⟩⟩
  have hstep := step_advanceRaw hc hlt hpiece.1 hadv
  cases hadv
  cases h
  refine ⟨{ hstep with
    row := ⟨Nat.le_refl _, Nat.le_refl _, trivial⟩
    whole := fun m hm => ?_ }, rfl, hpiece.2⟩
  rw [List.mem_singleton] at hm
  subst hm
  exact ⟨hpiece.2.sound hpiece.1, fun hk => by
    rcases hpiece.2.cases with ⟨h, -⟩ | ⟨h, -⟩ <;> rw [h] at hk <;> cases hk⟩

theorem templateText : Takes i st .tight true templateText := fun _ _ _ hc h =>
  (templateText_part hc h).1

section Goals

variable [SubReads i sub]

theorem templateSubstitution : Takes i st .tight true (templateSubstitution sub) := by
  unfold Grammar.templateSubstitution
  exact .of_run fun s => .here fun start => .read (.symbol (by decide)) fun _ =>
    .read .expressions fun e => .read (.symbolRaw (by decide)) fun _ => .node rfl (by simp)

/-- A substitution is a part of a template. -/
theorem templateSubstitution_part {c c' : Cursor} {n : Node} (hc : Fits i st c)
    (h : Grammar.templateSubstitution sub i c = some (n, c')) : IsPart i c c' n := by
  have hstep := templateSubstitution c n c' hc h
  unfold Grammar.templateSubstitution at h
  obtain ⟨_, _, h₀, h⟩ := Parser.bind_eq_some h
  cases h₀
  obtain ⟨_, _, -, h⟩ := Parser.bind_eq_some h
  obtain ⟨_, _, -, h⟩ := Parser.bind_eq_some h
  obtain ⟨_, _, -, h⟩ := Parser.bind_eq_some h
  cases h
  exact ⟨congrArg (Span.mk c.pos) hstep.fits.between, .inr rfl⟩

/-- The parts of a template cover what has been read of it. -/
theorem templateParts_cover {c c' : Cursor} {l : List Node} (hc : Fits i .tight c)
    (h : Parser.many (Grammar.templateSubstitution sub <|> Grammar.templateText) i c = some (l, c')) :
    Step i .tight false l c c' ∧ Covers i c.pos l c'.pos := by
  refine many_induction (F := Fits i .tight)
    (P := fun l c c' => Step i .tight false l c c' ∧ Covers i c.pos l c'.pos)
    (fun c hc => ⟨.refl hc, rfl⟩) (fun c n c₁ hc hn => ?_) hc h
  have hpart : Step i .tight true [n] c c₁ ∧ IsPart i c c₁ n := by
    change Parser.orElse _ _ i c = some (n, c₁) at hn
    unfold Parser.orElse at hn
    split at hn
    · next r hr =>
      cases hn
      exact ⟨templateSubstitution c n c₁ hc hr, templateSubstitution_part hc hr⟩
    · obtain ⟨hs, hspan, hpiece⟩ := templateText_part hc hn
      exact ⟨hs, hspan, .inl hpiece⟩
  obtain ⟨hs, hspan, hkind⟩ := hpart
  refine ⟨hs.fits, fun l c' ⟨hl, hcov⟩ => ⟨{ hs.trans hl with moves := nofun }, ?_, hkind, ?_⟩⟩
  · rw [hspan]
  · rw [hspan]
    exact hcov

theorem templateLiteral : Takes i st .settled true (templateLiteral sub) := by
  intro c n c' hc h
  unfold Grammar.templateLiteral at h
  obtain ⟨_, _, h₀, h⟩ := Parser.bind_eq_some h
  cases h₀
  obtain ⟨_, c₁, ho, h⟩ := Parser.bind_eq_some h
  obtain ⟨parts, c₂, hp, h⟩ := Parser.bind_eq_some h
  obtain ⟨_, c₃, hcl, h⟩ := Parser.bind_eq_some h
  have hopen := Takes.symbolRawOf (by decide) (by decide) c _ c₁ hc ho
  obtain ⟨hparts, hcov⟩ := templateParts_cover hopen.fits hp
  have hclose := Takes.symbolOf (by decide) (by decide) c₂ _ c₃ hparts.fits hcl
  have hopened : i.char c.pos = 96 ∧ c₁.pos = c.pos + 1 := by
    unfold Parser.symbolRaw at ho
    split at ho
    · next hr =>
      cases ho
      exact ⟨beq_iff_eq.1 (Bool.and_eq_true_iff.1 hr).1, rfl⟩
    · cases ho
  have hclosed : i.char c₂.pos = 96 ∧ c₃.last = c₂.pos + 1 := by
    unfold Parser.symbol at hcl
    split at hcl
    · next hr =>
      cases hcl
      exact ⟨beq_iff_eq.1 (Bool.and_eq_true_iff.1 hr).1, rfl⟩
    · cases hcl
  rw [hopened.2] at hcov
  have hstep := (hopen.trans hparts).trans hclose
  have hlast := hclosed.2
  cases h
  rw [hlast]
  exact { hstep with
    row := ⟨Nat.le_refl _, Nat.le_of_eq hlast.symm, trivial⟩
    whole := fun m hm => by
      rw [nodes_node, List.mem_singleton] at hm
      exact hm ▸ whole_template hopened.1 hcov hparts.whole hclosed.1 }

/-! ## Names of properties -/

theorem computedName : Reads i (computedName sub) := by
  unfold Grammar.computedName
  exact .of_run fun s => .here fun start => .read .sign fun _ => .read .expression fun e =>
    .read .sign fun _ => .node rfl (by simp)

theorem propertyName : Reads i (propertyName sub) := by
  unfold Grammar.propertyName
  exact .of_run fun s => .look fun c => .ite (fun _ => .only .stringLiteral rfl rfl) fun _ =>
    .ite (fun _ => .only .privateName rfl rfl) fun _ =>
    .ite (fun _ => .only .computedName rfl rfl) fun _ =>
    .ite (fun _ => .only .numberLiteral rfl rfl) fun _ => .only (.wordAs rfl) rfl rfl

end Goals

instance : Looks atPropertyName := by
  unfold atPropertyName
  infer_instance

theorem modifiers {ts : List Text} : MayRead i (modifiers ts) := by
  unfold Grammar.modifiers
  exact .many <| .of_run fun s => .read .oneOf fun w => .look fun _ => .look fun _ =>
    .look fun _ => .result rfl (by simp)

end Takes

end KeyTrace.Grammar
