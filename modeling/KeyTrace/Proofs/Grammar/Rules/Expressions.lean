/-
The rules for expressions. What follows an operand goes on from the node of the
operand: a member, a call or an operator makes one node of what has been read so
far and of what follows.
-/
import KeyTrace.Grammar.Expressions
import KeyTrace.Proofs.Grammar.Rules.Functions
import KeyTrace.Proofs.Grammar.Rules.Jsx

namespace KeyTrace.Grammar

open KeyTrace.Grammar.Parser

instance (ctx : Context) : Looks (endsHere ctx) := by
  unfold endsHere
  infer_instance

instance (ctx : Context) : Looks (endsInstantiation ctx) := by
  unfold endsInstantiation
  infer_instance

instance (ctx : Context) : Looks (operatorHere ctx) := by
  unfold operatorHere
  infer_instance

/-- An operator, if there is one, is spelled out. -/
def Spelled (o : Option (BinaryOperator × Text × Level)) : Prop :=
  ∀ x ∈ o, 0 < x.2.1.length ∧ endMark ∉ x.2.1

theorem Spelled.none : Spelled none := nofun

theorem Spelled.some {op : BinaryOperator} {s : String} {l : Level} (hs : 0 < (text s).length) :
    Spelled (some (op, text s, l)) := by
  intro x hx
  cases hx
  exact ⟨hs, Input.endMark_notMem_text s⟩

theorem Spelled.ite {b : Prop} [Decidable b] {o o' : Option (BinaryOperator × Text × Level)}
    (h : Spelled o) (h' : Spelled o') : Spelled (if b then o else o') := by
  split
  · exact h
  · exact h'

theorem operatorOf?_spelled (noIn : Bool) (c d e f : CodePoint) (w : Text) :
    Spelled (operatorOf? noIn c d e f w) := by
  unfold operatorOf?
  dsimp only
  repeat' apply Spelled.ite
  all_goals first
    | exact .none
    | exact .some (by decide)

namespace Takes

variable {i : Input} {sub : Sub}

theorem firstSymbol : ∀ {ts : List Text}, (∀ t ∈ ts, 0 < t.length ∧ endMark ∉ t) →
    Reads i (firstSymbol ts)
  | [], _ => fun _ _ _ _ h => by cases h
  | t :: ts, h => by
    have ht := h t List.mem_cons_self
    exact .orElse (.symbolOf ht.1 ht.2) (firstSymbol fun t' h' => h t' (List.mem_cons_of_mem _ h'))

theorem augmentedOperator : Reads i (Grammar.firstSymbol augmentedOperators) :=
  firstSymbol (by decide)

theorem update : Reads i (Parser.symbol (text "++") <|> Parser.symbol (text "--")) :=
  .orElse (.symbol (by decide)) (.symbol (by decide))

/-- The operator at the cursor is spelled out. -/
theorem operatorHere_spelled {ctx : Context} {c c' : Cursor} {op : BinaryOperator} {t : Text}
    {l : Level} (h : operatorHere ctx i c = some (some (op, t, l), c')) :
    0 < t.length ∧ endMark ∉ t := by
  obtain ⟨a, _, -, h⟩ := Parser.bind_eq_some h
  have hrest {w : Text} {c : Cursor} (h : (do
      return operatorOf? ctx.noIn a (← peek 1) (← peek 2) (← peek 3) w : Parser _) i c =
        some (some (op, t, l), c')) : 0 < t.length ∧ endMark ∉ t := by
    obtain ⟨_, _, -, h⟩ := Parser.bind_eq_some h
    obtain ⟨_, _, -, h⟩ := Parser.bind_eq_some h
    obtain ⟨_, _, -, h⟩ := Parser.bind_eq_some h
    exact operatorOf?_spelled _ _ _ _ _ _ _ (congrArg Prod.fst (Option.some.inj h))
  dsimp only at h
  split at h
  all_goals
    obtain ⟨_, _, -, h⟩ := Parser.bind_eq_some h
    exact hrest h

section Goals

variable [SubReads i sub]

theorem parenthesized : Reads i (parenthesized sub) := by
  unfold Grammar.parenthesized
  refine .of_run fun s => .here fun start => .read .sign fun _ => .read .expressions fun e =>
    .read (.option ?_) fun t => .read .sign fun _ => .node rfl (by simp)
  exact .of_run fun s => .look fun _ => .look fun _ => .only .typeMark rfl rfl

theorem assignmentTail {ctx : Context} {start : Nat} {left : Node} :
    Extends i start left (assignmentTail sub ctx start left) := by
  unfold Grammar.assignmentTail
  have hright : Run i .settled [⟨start, true, false, [left]⟩] (do
      let right ← sub.expressionIn ctx
      node .otherExpression start [left.withRole .left, right.withRole .right]) .settled
      fun n => [.whole start n] :=
    .read .expressionIn fun right => .last <| .close rfl (by simp) fun n _ => .done rfl rfl rfl rfl
  exact .look fun c => .look fun d => .ite (fun _ => .read .sign fun _ => hright) fun _ =>
    .ite (fun _ => .done rfl rfl rfl rfl) fun _ =>
    .test .augmentedOperator (fun _ => hright) (.done rfl rfl rfl rfl)

theorem appliedTypes {ctx : Context} : Reads i (appliedTypes sub ctx) := by
  unfold Grammar.appliedTypes
  exact .of_run fun s => .look fun _ => .look fun _ => .read .typeArguments fun ts => .look fun _ =>
    .look fun _ => .look fun _ => .result rfl (by simp)

omit [SubReads i sub] in
theorem appliedTypes_yields {ctx : Context} :
    Yields (fun o : Option Node => ∀ t ∈ o, t.part = (.none, .typeArguments))
      (option? (Grammar.appliedTypes sub ctx)) :=
  .option <| .skip fun _ => .skip fun _ => .bind typeArguments_yields fun _ h => .skip fun _ =>
    .skip fun _ => .skip fun _ => .pure h

/-- What a step after an operand makes, or the operand. -/
abbrev Continues (i : Input) (start : Nat) (left : Node) (p : Parser (Option Node)) : Prop :=
  Run i .settled [.whole start left] p .settled fun r => [.whole start (r.getD left)]

/-- A step ends with a node whose children are what they should be. -/
theorem continues_parts {kind : Kind} {ch : List Node} {start : Nat} {f : Frame} {left : Node}
    (hb : (f.begun && isPlain kind) = true) (hs : f.start = start)
    (hparts : kind.Has (ch.map Node.part)) (hch : ch.map plain = f.nodes.map plain) :
    Run i .settled [f] (do
      let n ← node kind start ch
      return some n) .settled fun r => [.whole start (r.getD left)] := by
  subst hs
  exact .closeParts hb hparts hch fun n _ => .done rfl rfl rfl rfl

/-- A step ends with the node it makes. -/
theorem continues_node {kind : Kind} {ch : List Node} {start : Nat} {f : Frame} {left : Node}
    (hb : (f.begun && isFree kind ch) = true) (hs : f.start = start)
    (hch : ch.map plain = f.nodes.map plain) : Run i .settled [f] (do
      let n ← node kind start ch
      return some n) .settled fun r => [.whole start (r.getD left)] :=
  have hb := Bool.and_eq_true_iff.1 hb
  continues_parts (Bool.and_eq_true_iff.2 ⟨hb.1, isPlain_of_isFree hb.2⟩) hs (has_of_isFree hb.2) hch

theorem postfixStep {ctx : Context} {calls : Bool} {start : Nat} {f : Node} :
    Continues i start f (postfixStep sub ctx calls start f) := by
  unfold Grammar.postfixStep
  have hdone {st : Stance} : Run i st [.whole start f] (return none : Parser (Option Node)) st
      fun r => [.whole start (r.getD f)] := .done rfl rfl rfl rfl
  have hmember : Run i .settled [⟨start, true, false, [f]⟩] (do
      let p ← Grammar.privateName <|> Grammar.wordAs .propertyIdentifier
      let n ← node .memberExpression start [f.withRole .object, p.withRole .property]
      return some n) .settled fun r => [.whole start (r.getD f)] :=
    .readWith .memberName fun _ p _ hp => continues_parts rfl rfl (has_member [p] <| by
      simpa using memberName_yields _ _ _ _ hp) (by simp)
  have hsubscript : Run i .settled [⟨start, true, false, [f]⟩] (do
      Parser.sign '['
      let k ← Grammar.expressions sub .inner
      Parser.sign ']'
      let n ← node .subscriptExpression start [f.withRole .object, k.withRole .index]
      return some n) .settled fun r => [.whole start (r.getD f)] :=
    .read .sign fun _ => .read .expressions fun k => .read .sign fun _ =>
      continues_node rfl rfl (by simp)
  refine .look fun ends => .ite (fun _ => hdone) fun _ => .look fun c => .look fun d =>
    .ite (fun _ => .read .sign fun _ => hmember) fun _ => .look fun _ => .ite (fun _ => ?_) fun _ =>
    .ite (fun _ => hsubscript) fun _ => .ite (fun _ => ?_) fun _ => .ite (fun _ => ?_) fun _ =>
    .ite (fun _ => ?_) fun _ => .ite (fun _ => ?_) fun _ => hdone
  · refine .read (.symbol (by decide)) fun _ => .look fun e => .ite (fun _ => ?_) fun _ =>
      .ite (fun _ => hsubscript) fun _ => hmember
    exact .look fun _ => .readWith (.option .dialectArguments) fun _ ts _ hts =>
      .read .arguments fun args => continues_parts rfl rfl (has_call _ fun t ht =>
        dialectArguments_yields _ _ _ _ hts t (Option.mem_toList.1 ht)) (by cases ts <;> simp)
  · exact .read .templateLiteral fun t => continues_parts rfl rfl (has_call [] nofun) (by simp)
  · exact .read .arguments fun args => continues_parts rfl rfl (has_call [] nofun) (by simp)
  · refine .readWith (.option .appliedTypes) fun _ ts _ hts => ?_
    cases ts with
    | none => exact hdone
    | some ts =>
      refine .look fun _ => .ite (fun _ => ?_) fun _ => continues_node rfl rfl (by simp)
      exact .read .arguments fun args => continues_parts rfl rfl (has_call [ts] <| by
        simpa using appliedTypes_yields _ _ _ _ hts) (by simp)
  · exact .read .update fun _ => continues_node rfl rfl (by simp)

theorem postfixes {ctx : Context} {calls : Bool} {start : Nat} : ∀ {n : Nat} {left : Node},
    Extends i start left (postfixes sub ctx calls start n left)
  | 0, _ => .done rfl rfl rfl rfl
  | n + 1, left => by
    unfold Grammar.postfixes
    refine .bind postfixStep fun r => ?_
    cases r with
    | none => exact .done rfl rfl rfl rfl
    | some next => exact postfixes

theorem allPostfixes {ctx : Context} {calls : Bool} {start : Nat} {left : Node} :
    Extends i start left (allPostfixes sub ctx calls start left) := fun c a c' hc hs h =>
  postfixes (n := i.chars.size + 1) c a c' hc hs h

theorem patternTarget : Reads i (patternTarget sub) := by
  unfold Grammar.patternTarget
  exact .of_run fun s => .read .destructuring fun p => .look fun _ => .look fun _ => .look fun _ =>
    .look fun _ => .result rfl (by simp)

theorem bracketed {literal : Parser Node} (hl : Reads i literal) : Reads i (bracketed sub literal) := by
  unfold Grammar.bracketed
  refine .orElse ?_ .patternTarget
  exact .of_run fun s => .read hl fun e => .look fun _ => .look fun _ => .look fun _ => .look fun _ =>
    .result rfl (by simp)

theorem newExpression_of {fuel : Nat} (hp : ∀ ctx, Reads i (Grammar.primary sub ctx fuel)) :
    Reads i (newExpression sub (fuel + 1)) := by
  unfold Grammar.newExpression
  have htarget : Reads i (do Parser.sign '.'; Parser.keyword (text "target")) :=
    .of_run fun s => .read .sign fun _ => .only .keyword rfl rfl
  have htypes : Reads i (do
      Parser.guard (← dialect).hasTypes
      let ts ← Grammar.typeArguments sub
      Parser.guard ((← atSign '(') || (← endsInstantiation .final))
      return ts) :=
    .of_run fun s => .look fun _ => .look fun _ => .read .typeArguments fun ts => .look fun _ =>
      .look fun _ => .look fun _ => .result rfl (by simp)
  exact .of_run fun s => .here fun start => .read .keyword fun _ => .test htarget
    (fun _ => .node rfl (by simp)) <| .here fun inner => .read (hp _) fun first =>
    .extend allPostfixes rfl fun c => .merge <| .read (.option htypes) fun ts =>
    .read (.option .arguments) fun args => .node rfl (by simp)

theorem primary_of {fuel : Nat} {ctx : Context} (hn : Reads i (newExpression sub fuel)) :
    Reads i (primary sub ctx (fuel + 1)) := by
  unfold Grammar.primary
  have hname : Reads i (Grammar.arrowFunction sub ctx <|> Grammar.nameLeaf) :=
    .orElse .arrowFunction .nameLeaf
  refine .of_run fun s => .here fun start => .look fun c => .look fun _ =>
    .ite (fun _ => .merge <| .only .stringLiteral rfl rfl) fun _ =>
    .ite (fun _ => .merge <| .only .templateLiteral rfl rfl) fun _ =>
    .ite (fun _ => .merge <| .only (.orElse .arrowFunction parenthesized) rfl rfl) fun _ =>
    .ite (fun _ => .merge <| .only (bracketed .arrayLiteral) rfl rfl) fun _ =>
    .ite (fun _ => .merge <| .only (bracketed .objectLiteral) rfl rfl) fun _ =>
    .ite (fun _ => .merge <| .only .regexLiteral rfl rfl) fun _ => .look fun _ =>
    .ite (fun _ => .merge <| .only .numberLiteral rfl rfl) fun _ =>
    .ite (fun _ => .merge <| .only .classExpression rfl rfl) fun _ =>
    .ite (fun _ => ?_) fun _ => .ite (fun _ => ?_) fun _ => .look fun w =>
    .ite (fun _ => .merge <| .only .functionExpression rfl rfl) fun _ =>
    .ite (fun _ => .merge <| .only .classExpression rfl rfl) fun _ =>
    .ite (fun _ => .merge <| .only hn rfl rfl) fun _ =>
    .ite (fun _ => .merge <| .only (.wordAs rfl) rfl rfl) fun _ =>
    .ite (fun _ => ?_) fun _ => .ite (fun _ => ?_) fun _ => .ite (fun _ => ?_) fun _ =>
    .merge <| .only hname rfl rfl
  · exact .read .privateName fun n => .look fun _ => .look fun _ => .merge <| .result rfl (by simp)
  · refine .orElse ?_ (.orElse ?_ ?_)
    · exact .look fun _ => .merge <| .only .arrowFunction rfl rfl
    · exact .look fun _ => .look fun _ => .read .jsxElement fun e => .read .settle fun _ => .merge <|
        .result rfl (by simp)
    · exact .look fun _ => .look fun _ => .read .typeArguments fun t => .read .operation fun e =>
        .node rfl (by simp)
  · exact .read (.wordAs rfl) fun n => .look fun _ => .look fun _ => .look fun _ => .merge <|
      .result rfl (by simp)
  · exact .look fun _ => .ite (fun _ => .merge <| .only .functionExpression rfl rfl) fun _ =>
      .merge <| .only hname rfl rfl
  · refine .orElse ?_ (.merge <| .only hname rfl rfl)
    exact .read .keyword fun _ => .look fun _ => .look fun _ => .look fun _ => .here fun inner =>
      .read .nameLeaf fun n => .extend allPostfixes rfl fun o => .look fun _ => .merge <|
      .read .sign fun _ => .read .expressionIn fun right => .node rfl (by simp)

theorem primary_newExpression : ∀ fuel : Nat,
    Reads i (newExpression sub fuel) ∧ ∀ ctx, Reads i (Grammar.primary sub ctx fuel)
  | 0 => by
    refine ⟨fun _ _ _ _ h => ?_, fun _ _ _ _ _ h => ?_⟩
    · unfold Grammar.newExpression at h
      cases h
    · unfold Grammar.primary at h
      cases h
  | fuel + 1 => ⟨newExpression_of (primary_newExpression fuel).2, fun _ =>
      primary_of (primary_newExpression fuel).1⟩

theorem primary {ctx : Context} : Reads i (fun i => Grammar.primary sub ctx (i.chars.size + 1) i) :=
  fun c n c' hc h => (primary_newExpression _).2 ctx c n c' hc h

theorem operand {ctx : Context} : Reads i (operand sub ctx) := by
  unfold Grammar.operand
  refine .of_run fun s => .here fun start => .look fun c => .look fun d =>
    .ite (fun _ => .read .update fun _ => .read .operation fun e => .node rfl (by simp)) fun _ =>
    .ite (fun hc => ?_) fun _ => .look fun w =>
    .ite (fun _ => .read .word fun _ => .read .operation fun e => .node rfl (by simp)) fun _ =>
    .ite (fun _ => .read .word fun _ => .read .operation fun e => .node rfl (by simp)) fun _ =>
    .ite (fun _ => ?_) fun _ => ?_
  · have hc : endMark ∉ [c] := by
      rintro h
      rw [List.mem_singleton] at h
      subst h
      cases hc
    exact .read (.symbolOf Nat.one_pos hc) fun _ => .read .operation fun e => .node rfl (by simp)
  · refine .read .word fun _ => .look fun _ => .ite (fun _ => .node rfl (by simp)) fun _ =>
      .read (.test .sign) fun star => .option .expressionIn (fun e => .node rfl (by simp)) ?_
    exact .look fun _ => .node rfl (by simp)
  · exact .read primary fun first => .extend allPostfixes rfl fun all => .look fun _ =>
      .ite (fun _ => .merge <| .result rfl (by simp)) fun _ =>
      .last <| .extend assignmentTail rfl fun n => .merge <| .result rfl (by simp)

theorem conditionalTail {ctx : Context} : Reads i (conditionalTail sub ctx) := by
  unfold Grammar.conditionalTail
  have hyes {ctx : Context} : Reads i (do
      let e ← sub.expressionIn ctx
      Parser.sign ':'
      return e) :=
    .of_run fun s => .read .expressionIn fun e => .read .sign fun _ => .result rfl (by simp)
  exact .of_run fun s => .read .sign fun _ => .read (.orElse hyes hyes) fun yes =>
    .read .expressionIn fun no => .result rfl (by simp)

theorem operationStep {ctx : Context} {level : Level} {assertions : Bool} {start : Nat}
    {left : Node} : Continues i start left (operationStep sub ctx level assertions start left) := by
  unfold Grammar.operationStep
  have hdone {st : Stance} : Run i st [.whole start left] (return none : Parser (Option Node)) st
      fun r => [.whole start (r.getD left)] := .done rfl rfl rfl rfl
  have htype : Reads i (do return [← sub .type]) :=
    .of_run fun s => .read .type fun t => .result rfl (by simp)
  have hassertion {w : Text} {f : Frame} {t : List Node} (hf : f = ⟨start, true, false, left :: t⟩) :
      Run i .settled [f] (do
        let n ← node (if w == text "as" then .asExpression else .satisfiesExpression) start (left :: t)
        return some (← Grammar.allPostfixes sub ctx true start n)) .settled
        fun r => [.whole start (r.getD left)] := by
    subst hf
    exact .close (by simp only [Bool.true_and]; split <;> rfl) rfl fun n _ =>
      .extend allPostfixes rfl fun r => .done rfl rfl rfl rfl
  refine .look fun ends => .ite (fun _ => hdone) fun _ => .lookWith fun cur o ho => ?_
  cases o with
  | some o =>
    obtain ⟨op, t, l⟩ := o
    have ht := operatorHere_spelled ho
    have hright {right : Node} : Run i .settled [⟨start, true, false, [left, right]⟩] (do
        let n ← node (.binaryExpression op) start [left.withRole .left, right.withRole .right]
        return some n) .settled fun r => [.whole start (r.getD left)] :=
      continues_node rfl rfl (by simp)
    exact .ite (fun _ => hdone) fun _ => .read (.symbolOf ht.1 ht.2) fun _ =>
      .ite (fun _ => .read .operation fun right => hright) fun _ =>
      .read .operation fun right => hright
  | none =>
    refine .look fun c => .ite (fun _ => ?_) fun _ => .look fun _ => .ite (fun _ => ?_) fun _ => hdone
    · have hlook : Looks (fun (i : Input) cur => some (i.opensConditional cur.pos, cur)) :=
        ⟨fun h => by cases h; rfl⟩
      exact .look fun _ => .ite (fun _ => hdone) fun _ => .read .conditionalTail fun (yes, no) =>
        continues_node rfl rfl (by simp)
    · refine .ite (fun _ => ?_) fun _ => .look fun w => .ite (fun _ => ?_) fun _ => hdone
      · exact .read .sign fun _ => .close rfl (by simp) fun n _ => .extend allPostfixes rfl fun all =>
          .look fun _ => .ite (fun _ => .done rfl rfl rfl rfl) fun _ =>
          .extend assignmentTail rfl fun r => .done rfl rfl rfl rfl
      · refine .read .word fun _ => .ite (fun _ => .test .keyword (fun _ => .pureBind ?_) ?_)
          fun _ => .pureBind ?_
        · exact hassertion (by simp)
        · exact .read htype fun t => hassertion (by simp)
        · exact .read htype fun t => hassertion (by simp)

theorem operationSteps {ctx : Context} {level : Level} {assertions : Bool} {start : Nat} :
    ∀ {n : Nat} {left : Node},
      Extends i start left (operationSteps sub ctx level assertions start n left)
  | 0, _ => .done rfl rfl rfl rfl
  | n + 1, left => by
    unfold Grammar.operationSteps
    refine .bind operationStep fun r => ?_
    cases r with
    | none => exact .done rfl rfl rfl rfl
    | some next => exact operationSteps

theorem operationGoal {ctx : Context} {level : Level} {assertions : Bool} :
    Reads i (Grammar.operation sub ctx level assertions) := by
  unfold Grammar.operation
  have hsteps {start : Nat} {first : Node} : Extends i start first
      (fun i => Grammar.operationSteps sub ctx level assertions start (i.chars.size + 1) first i) :=
    fun c a c' hc hs h => operationSteps (n := i.chars.size + 1) c a c' hc hs h
  exact .of_run fun s => .here fun start => .read operand fun first =>
    .last <| .extend hsteps rfl fun n => .merge <| .result rfl (by simp)

end Goals

end Takes

end KeyTrace.Grammar
