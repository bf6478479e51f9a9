/-
The rules for JSX. The text of an attribute is a string that is not cut up; it
stands right below an attribute with a name and nowhere else.
-/
import KeyTrace.Grammar.Jsx
import KeyTrace.Proofs.Grammar.Rules.Signatures

namespace KeyTrace.Grammar

open KeyTrace.Grammar.Parser

/-- The text of an attribute ends at the closing quote. -/
theorem jsxStringEnd?_lt {i : Input} {quote : CodePoint} (hq : quote ≠ endMark) {n p e : Nat}
    (h : jsxStringEnd? i quote n p = some e) : p ≤ e ∧ e < i.chars.size := by
  induction n generalizing p with
  | zero => cases h
  | succ n ih =>
    unfold jsxStringEnd? at h
    dsimp only at h
    split at h
    · next hc =>
      cases h
      exact ⟨Nat.le_refl _, Input.lt_size_of_char_eq hq (beq_iff_eq.1 hc)⟩
    · split at h
      · cases h
      · split at h
        · split at h
          · next a ha =>
            have := Input.referenceEnd?_le ha
            have := ih h
            omega
          · cases h
        · have := ih h
          omega

namespace Takes

variable {i : Input} {st : Stance} {sub : Sub}

theorem jsxWord {kind : Kind} (hk : isFree kind [] = true) :
    Takes i st .settled true (jsxWord kind) := by
  unfold Grammar.jsxWord
  refine .of_run fun s => .here fun start => .lexeme (fun c e c' _ h => ?_) fun _ =>
    .node (by simp [hk]) (by simp)
  obtain ⟨a, ha, h⟩ := Option.map_eq_some_iff.1 h
  cases h
  have hle := Input.wordEnd?_le ha
  have := Input.skipWhile_le hle.2 (fun a => isWordPart a || a == 45)
  exact ⟨rfl, by omega, this.2⟩

theorem jsxWord_yields {kind : Kind} : Yields (fun n : Node => n.kind = kind) (Grammar.jsxWord kind) :=
  .skip fun _ => .skip fun _ => .skip fun _ => .node fun _ => rfl

theorem jsxName : Reads i jsxName := by
  unfold Grammar.jsxName
  refine .of_run fun s => .here fun start => .read (.jsxWord rfl) fun first => .test .sign
    (fun _ => .read (.jsxWord rfl) fun second => .node rfl (by simp)) <|
    .readWith .dottedNames fun _ rest _ hrest => .ite (fun h => ?_) fun _ =>
    .nodeParts rfl (has_member _ (dottedNames_yields _ _ _ _ hrest)) (by simp)
  rw [List.isEmpty_iff] at h
  exact .merge <| .result rfl (by simp [h])

theorem jsxText : Takes i st .tight true jsxText := by
  unfold Grammar.jsxText
  refine .of_run fun s => .here fun start => .lexemeRaw (fun c e c' hc h => ?_) fun _ =>
    .node rfl (by simp)
  obtain ⟨a, ha, h⟩ := Option.map_eq_some_iff.1 h
  cases h
  rw [Option.orElse_eq_orElse, Option.orElse_eq_or, Option.or_eq_some_iff] at ha
  rcases ha with ha | ⟨-, ha⟩
  · have := Input.jsxTextEnd?_le hc ha
    exact ⟨rfl, this.2.2 rfl, this.2.1⟩
  · exact ⟨rfl, Input.referenceEnd?_le ha⟩

theorem jsxBlank : Takes i .tight .loose false jsxBlank := by
  intro c a c' hc h
  cases h
  have hle := Input.skipWhile_le hc.within isBlank
  exact ⟨⟨Nat.le_trans hc.order hle.1, hle.2, hc.comments, trivial⟩, Nat.le_refl _, hle.1, nofun,
    trivial, nofun⟩

/-- The text of an attribute is a leaf. -/
theorem jsxString_leaf {c c' : Cursor} {n : Node} (hc : Fits i st c)
    (h : jsxString i c = some (n, c')) :
    Step i .settled true [] c c' ∧ n = .mk .none .string ⟨c.pos, c'.last⟩ [] := by
  unfold Grammar.jsxString at h
  obtain ⟨_, _, h₀, h⟩ := Parser.bind_eq_some h
  cases h₀
  obtain ⟨quote, _, hq, h⟩ := Parser.bind_eq_some h
  cases Looks.eq hq
  obtain ⟨_, c₁, hg, h⟩ := Parser.bind_eq_some h
  have hquote : quote ≠ endMark := by
    rintro rfl
    cases hg
  cases Looks.eq hg
  obtain ⟨close, c₁, h₀, h⟩ := Parser.bind_eq_some h
  obtain ⟨_, hclose, h₀⟩ := Option.map_eq_some_iff.1 h₀
  cases h₀
  have hle := jsxStringEnd?_lt hquote hclose
  obtain ⟨_, c₂, ha, h⟩ := Parser.bind_eq_some h
  have hstep := step_advance (e := close + 1) hc (by omega) hle.2 ha
  cases h
  exact ⟨hstep, rfl⟩

/-- The text of an attribute may be the last part of a node of JSX syntax. -/
theorem whole_attribute {a p b : Nat} {ns : List Node} (hw : ∀ n ∈ ns, Whole i n)
    (hname : ∃ n ∈ ns, n.kind = .propertyIdentifier) (ha : a ≤ p)
    (hr : Row a ns p) (hp : p < b) (hb : b ≤ i.chars.size) :
    Whole i (.mk .none .jsxSyntax ⟨a, b⟩ (ns ++ [.mk .none .string ⟨p, b⟩ []])) := by
  have hleaf : Sound i (.mk .none .string ⟨p, b⟩ []) :=
    .of_children ⟨hp, hb, trivial, nofun, rfl, nofun, nofun, nofun, nofun, nofun⟩ nofun
  refine ⟨.of_children ?_ fun c hc => ?_, nofun⟩
  · exact {
      nonempty := Nat.lt_of_le_of_lt ha hp
      within := hb
      row := hr.append ha (Nat.le_refl _) (Nat.le_of_lt hp) ⟨Nat.le_refl _, Nat.le_refl _, trivial⟩
      kind := nofun
      comment := rfl
      smaller := nofun
      strings := fun _ _ _ =>
        .inl ⟨rfl, hname.imp fun _ hn => ⟨List.mem_append_left _ hn.1, hn.2⟩⟩
      template := nofun
      source := nofun
      parts := nofun }
  · rcases List.mem_append.1 hc with hc | hc
    · exact (hw c hc).sound
    · exact List.mem_singleton.1 hc ▸ hleaf

section Goals

variable [SubReads i sub]

theorem jsxExpression : Takes i st .tight true (jsxExpression sub) := by
  unfold Grammar.jsxExpression
  refine .of_run fun s => .here fun start => .read .sign fun _ => .read (.option ?_) fun e =>
    .read (.symbolRaw (by decide)) fun _ => .node rfl (by simp)
  exact .of_run fun s => .here fun start => .test (.symbol (by decide))
    (fun _ => .read .expression fun e => .node rfl (by simp))
    (.merge <| .only .expressions rfl rfl)

/-- What follows a construct that has been read up to its last token. -/
theorem stack_closed {f : Frame} {n : Node} {s last pos last' pos' : Nat}
    (hs : Stack i [f, .fresh s] last pos) (hb : f.begun = true) (hl : last ≤ last') (hp : pos ≤ pos')
    (hspan : n.span = ⟨f.start, last'⟩) (hn : Whole i n) :
    Stack i [⟨s, true, false, [n]⟩] last' pos' := by
  have hstart : s ≤ f.start := hs.2.1.1.start_le
  have hbegun := hs.1.begun hb
  have hle := hs.1.start_le
  refine ⟨⟨Nat.le_trans hstart (Nat.le_trans hle hp), fun _ => by simp only; omega, nofun, ?_, ?_⟩,
    trivial, nofun⟩
  · exact ⟨hspan ▸ hstart, Nat.le_of_eq (congrArg Span.stop hspan), trivial⟩
  · intro m hm
    exact List.mem_singleton.1 hm ▸ hn

/-- The value of an attribute, if it has one, is its last part. -/
theorem jsxValue {f : Frame} {s : Nat} {ns : List Node} (hb : f.begun = true)
    (hns : ns.map plain = f.nodes.map plain) (hname : ∃ n ∈ ns, n.kind = .propertyIdentifier) :
    Run i .settled [f, .fresh s] (do
      let v ← option? (do
        Parser.sign '='
        Grammar.jsxString <|> (do
          let v ← Grammar.jsxExpression sub <|> sub .jsxElement
          Parser.settle
          return v))
      node .jsxSyntax f.start (ns ++ v.toList)) .settled
      fun n : Node => [⟨s, true, false, [n]⟩] := by
  have hother : Reads i (do
      let v ← Grammar.jsxExpression sub <|> sub .jsxElement
      Parser.settle
      return v) :=
    .of_run fun s => .read (.orElse .jsxExpression .jsxElement) fun v => .read .settle fun _ =>
      .result rfl (by simp)
  intro c m c' hc hs h
  obtain ⟨v, c₁, hv, h⟩ := Parser.bind_eq_some h
  unfold Parser.option? at hv
  split at hv
  · next v c₁ hv' =>
    cases hv
    obtain ⟨_, c₂, hsign, hv⟩ := Parser.bind_eq_some hv'
    have hstep := Takes.sign c _ c₂ hc hsign
    change Parser.orElse _ _ i c₂ = some _ at hv
    unfold Parser.orElse at hv
    split at hv
    -- a string stands in the text as it is, right up to where the attribute ends
    · next r hr =>
      cases hv
      obtain ⟨hstring, rfl⟩ := jsxString_leaf hstep.fits hr
      cases h
      have hrow := row_of_plain_eq hns (hs.1.row.mono (Nat.le_add_right _ _) (Nat.le_refl _))
      have hlast : c.last ≤ c₂.pos := Nat.le_trans hstep.last_le hstep.fits.order
      have hstart : f.start ≤ c₂.pos := Nat.le_trans (Nat.le_of_lt (hs.1.begun hb)) hlast
      exact ⟨hstring.fits, Nat.le_trans hstep.last_le hstring.last_le,
        Nat.le_trans hstep.pos_le hstring.pos_le, stack_closed hs hb
          (Nat.le_trans hstep.last_le hstring.last_le) (Nat.le_trans hstep.pos_le hstring.pos_le) rfl
          (whole_attribute (whole_of_plain_eq hns hs.1.whole) hname hstart
            (hrow.mono (Nat.le_refl _) hlast) (hstring.moves rfl)
            (Nat.le_trans hstring.fits.order hstring.fits.within))⟩
    · have hvalue := hother c₂ v c₁ hstep.fits hv
      have hall := hstep.trans hvalue
      obtain ⟨hc', hl, hp, hs'⟩ := Run.node (by simp; rfl) (by simp [hns]) c₁ m c' hvalue.fits
        (hs.grown hc hall) h
      exact ⟨hc', Nat.le_trans hall.last_le hl, Nat.le_trans hall.pos_le hp, hs'⟩
  · cases hv
    exact Run.node (by simp [hb]; rfl) (by simp [hns]) c m c' hc hs h

theorem jsxAttribute : Reads i (jsxAttribute sub) := by
  unfold Grammar.jsxAttribute
  refine .orElse ?_ ?_
  · exact .of_run fun s => .read .jsxExpression fun e => .read .settle fun _ => .result rfl (by simp)
  · refine .of_run fun s => .here fun start => .readWith (.jsxWord rfl) fun _ n _ hn =>
      .read (.option ?_) fun second => ?_
    · exact .of_run fun s => .read .sign fun _ => .only (.jsxWord rfl) rfl rfl
    · exact jsxValue rfl (by simp) ⟨n, List.mem_cons_self, jsxWord_yields _ _ _ _ hn⟩

theorem jsxChild : Takes i .tight .tight true (jsxChild sub) := by
  unfold Grammar.jsxChild
  refine .orElse .jsxText ?_
  exact .of_run fun s => .read .jsxBlank fun _ => .look fun c =>
    .ite (fun _ => .only .jsxExpression rfl rfl) fun _ => .look fun _ =>
    .ite (fun _ => .only .jsxElement rfl rfl) fun _ => .fail

theorem jsxClosing : Takes i .tight .tight true jsxClosing := by
  unfold Grammar.jsxClosing
  exact .of_run fun s => .read .jsxBlank fun _ => .here fun start => .read (.symbol (by decide))
    fun _ => .read (.option .jsxName) fun n => .read (.symbolRaw (by decide)) fun _ =>
    .node rfl (by simp)

theorem jsxElementGoal : Takes i st .tight true (Grammar.jsxElement sub) := by
  unfold Grammar.jsxElement
  have hheading : Reads i (do
      let n ← Grammar.jsxName
      let ts ← option? (do Parser.guard (← dialect).hasTypes; Grammar.typeArguments sub)
      let attrs ← Parser.many (Grammar.jsxAttribute sub)
      return n :: ts.toList ++ attrs) :=
    .of_run fun s => .read .jsxName fun n => .read (.option .dialectArguments) fun ts =>
      .read (.many .jsxAttribute) fun attrs => .result rfl (by simp)
  have hrest {st : Stance} {f : Frame} {s : Nat} {heading : Option (List Node)} (hb : f.begun = true)
      (hn : f.nodes.map plain = (heading.getD []).map plain) : Run i st [f, .fresh s] (do
        Parser.symbolRaw (text ">")
        let opening ← node .jsxSyntax f.start (heading.getD [])
        let inside ← Parser.many (Grammar.jsxChild sub)
        let closing ← Grammar.jsxClosing
        node .jsxSyntax f.start (opening :: inside ++ [closing])) .tight
        fun n : Node => [⟨s, true, false, [n]⟩] :=
    .read (.symbolRaw (by decide)) fun _ => .close (by simp [hb]; rfl) (by simp [hn])
      fun opening _ => .read (.manyOf .jsxChild) fun inside => .read .jsxClosing fun closing =>
      .node rfl (by simp)
  refine .of_run fun s => .here fun start => .read .sign fun _ => .read (.option hheading)
    fun heading => .ite (fun _ => .test (.symbolRaw (by decide)) (fun _ => ?_) ?_) fun _ => ?_
  · exact .node rfl (by cases heading <;> simp)
  · exact hrest rfl (by cases heading <;> simp)
  · exact hrest rfl (by cases heading <;> simp)

end Goals

end Takes

end KeyTrace.Grammar
