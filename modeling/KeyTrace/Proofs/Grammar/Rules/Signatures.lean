/-
The rules that functions, methods and types share.
-/
import KeyTrace.Grammar.Signatures
import KeyTrace.Proofs.Grammar.Rules.Literals

namespace KeyTrace.Grammar.Takes

open KeyTrace.Grammar.Parser

variable {i : Input} {sub : Sub} [SubReads i sub]

/-- An expression that may be spread. -/
theorem spreadable : Reads i (do
    let start ← here
    if ← Parser.test (Parser.symbol (text "...")) then
      let e ← sub.expression
      node .spreadElement start [e]
    else sub.expression) :=
  .of_run fun s => .here fun start => .test (.symbol (by decide))
    (fun _ => .read .expression fun e => .node rfl (by simp))
    (.merge <| .only .expression rfl rfl)

theorem arguments : Reads i (arguments sub) := by
  unfold Grammar.arguments
  exact .of_run fun s => .here fun start => .read .sign fun _ => .read (.elements .spreadable)
    fun args => .read .sign fun _ => .node rfl (by simp)

theorem typeArguments : Reads i (typeArguments sub) := by
  unfold Grammar.typeArguments
  exact .of_run fun s => .here fun start => .read .sign fun _ => .read (.sepBy1 .type (.weaken .sign)) fun ts =>
    .read (.test .sign) fun _ => .read .sign fun _ => .node rfl (by simp)

omit [SubReads i sub] in
theorem typeArguments_yields : Yields (fun t : Node => t.part = (.none, .typeArguments))
    (Grammar.typeArguments sub) :=
  .skip fun _ => .skip fun _ => .skip fun _ => .skip fun _ => .skip fun _ => .node fun _ => rfl

/-- The types something is applied to, where there are types. -/
theorem dialectArguments : Reads i (do
    Parser.guard (← dialect).hasTypes
    Grammar.typeArguments sub) :=
  .of_run fun _ => .look fun _ => .look fun _ => .only .typeArguments rfl rfl

omit [SubReads i sub] in
theorem dialectArguments_yields :
    Yields (fun o : Option Node => ∀ t ∈ o, t.part = (.none, .typeArguments)) (option? do
      Parser.guard (← dialect).hasTypes
      Grammar.typeArguments sub) :=
  .option <| .skip fun _ => .skip fun _ => typeArguments_yields

theorem typeParameter : Reads i (typeParameter sub) := by
  unfold Grammar.typeParameter
  refine .of_run fun s => .here fun start => .read (.test ?_) fun _ =>
    .read (.nameAs rfl) fun n => .read (.option ?_) fun bound =>
    .read (.option ?_) fun default => .node rfl (by simp)
  · exact .of_run fun s => .read .keyword fun _ => .look fun _ => .check rfl rfl
  · exact .of_run fun s => .read (.orElse .keyword .sign) fun _ => .only .type rfl rfl
  · exact .of_run fun s => .read .sign fun _ => .only .type rfl rfl

theorem typeParameters : Reads i (typeParameters sub) := by
  unfold Grammar.typeParameters
  exact .of_run fun s => .here fun start => .read .sign fun _ =>
    .read (.sepBy1 .typeParameter (.weaken .sign)) fun ps => .read (.test .sign) fun _ => .read .sign fun _ =>
    .node rfl (by simp)

theorem typeMark : Reads i (typeMark sub) := by
  unfold Grammar.typeMark
  exact .of_run fun s => .here fun start => .read .sign fun _ => .read .type fun t =>
    .node rfl (by simp)

omit [SubReads i sub] in
theorem predicateSubject : Reads i predicateSubject :=
  .orElse (.keywordAs rfl) (.nameAs rfl)

theorem typePredicate : Reads i (typePredicate sub) := by
  unfold Grammar.typePredicate
  exact .of_run fun s => .here fun start => .read .predicateSubject fun n => .read .keyword fun _ =>
    .read .type fun t => .node rfl (by simp)

theorem typeAssertion : Reads i (typeAssertion sub) := by
  unfold Grammar.typeAssertion
  exact .of_run fun s => .here fun start => .read .keyword fun _ =>
    .read (.orElse .typePredicate .predicateSubject) fun n => .node rfl (by simp)

theorem resultType : Reads i (resultType sub) :=
  .orElse .typePredicate (.orElse .typeAssertion .type)

theorem resultMark : Reads i (resultMark sub) := by
  unfold Grammar.resultMark
  exact .of_run fun s => .here fun start => .read .sign fun _ => .read .resultType fun t =>
    .node rfl (by simp)

omit [SubReads i sub] in
theorem decoratorMembers {start : Nat} : ∀ {n : Nat} {left : Node},
    Extends i start left (Grammar.decoratorMembers start n left)
  | 0, left => .done rfl rfl rfl rfl
  | n + 1, left => by
    unfold Grammar.decoratorMembers
    have hname : Yields (fun o : Option Node => ∀ p ∈ o, p.kind = .propertyIdentifier)
        (option? do Parser.sign '.'; Grammar.wordAs .propertyIdentifier) :=
      .option <| .skip fun _ => wordAs_yields
    refine .readWith (.option ?_) fun _ p _ hp => ?_
    · exact .of_run fun s => .read .sign fun _ => .only (.wordAs rfl) rfl rfl
    · cases p with
      | some p =>
        refine .closeParts rfl (has_member [p] ?_) (by simp) fun m _ => decoratorMembers
        simp [hname _ _ _ _ hp p rfl, Kind.isName]
      | none => exact .done rfl rfl rfl (by simp)

omit [SubReads i sub] in
theorem allDecoratorMembers {start : Nat} {left : Node} : Extends i start left
    (fun i => Grammar.decoratorMembers start (i.chars.size + 1) left i) :=
  decoratorMembers (n := i.chars.size + 1)

omit [SubReads i sub] in
theorem decoratorName : Reads i decoratorName := by
  unfold Grammar.decoratorName
  exact .of_run fun s => .here fun start => .read (.nameAs rfl) fun first =>
    .last <| .extend allDecoratorMembers rfl fun n => .merge <| .result rfl (by simp)

theorem decoratorTarget : Reads i (decoratorTarget sub) := by
  unfold Grammar.decoratorTarget
  refine .of_run fun s => .here fun start => .read .decoratorName fun n =>
    .readWith (.option .dialectArguments) fun _ ts _ hts => .option .arguments (fun args =>
      .nodeParts rfl (has_call _ fun t ht => ?_) (by simp)) <| .guard fun h => .merge <| .result rfl ?_
  · exact dialectArguments_yields _ _ _ _ hts t (Option.mem_toList.1 ht)
  · rw [Option.isNone_iff_eq_none] at h
    simp [h]

theorem decorator : Reads i (decorator sub) := by
  unfold Grammar.decorator
  refine .of_run fun s => .here fun start => .read .sign fun _ =>
    .read (.orElse ?_ .decoratorTarget) fun n => .node rfl (by simp)
  exact .of_run fun s => .here fun start => .read .sign fun _ => .read .decoratorTarget fun n =>
    .read .sign fun _ => .node rfl (by simp)

theorem initializer {ctx : Context} : Reads i (initializer sub ctx) := by
  unfold Grammar.initializer
  exact .of_run fun s => .look fun _ => .look fun _ => .read .sign fun _ => .only .expressionIn rfl rfl

theorem formalParameter : Reads i (formalParameter sub) := by
  unfold Grammar.formalParameter
  refine .of_run fun s => .here fun start => .look fun _ => .ite (fun _ => ?_) fun _ => ?_
  · refine .read (.many .decorator) fun ds => .read (.many ?_) fun _ =>
      .read (.orElse ?_ .pattern) fun p => .read (.test .sign) fun o =>
      .read (.option .typeMark) fun t => .read (.option .initializer) fun v => .node ?_ ?_
    · exact .of_run fun s => .read .oneOf fun _ => .look fun _ => .check rfl (by simp)
    · exact .of_run fun s => .read (.keywordAs rfl) fun n => .look fun _ => .look fun _ =>
        .look fun _ => .result rfl (by simp)
    · cases o <;> rfl
    · simp
  · exact .read .pattern fun p => .option .initializer (fun v => .node rfl (by simp)) <|
      .merge <| .result rfl (by simp)

theorem formalParameters : Reads i (formalParameters sub) := by
  unfold Grammar.formalParameters
  refine .of_run fun s => .here fun start => .read .sign fun _ =>
    .read (.sepBy .formalParameter (.weaken .sign)) fun ps => .ite (fun _ => ?_) fun _ => ?_
  · exact .read (.test .sign) fun _ => .read .sign fun _ => .node rfl (by simp)
  · exact .read .sign fun _ => .node rfl (by simp)

theorem callSignature {returns : Bool} : Reads i (callSignature sub returns) := by
  unfold Grammar.callSignature
  refine .of_run fun s => .look fun types => .read (.option ?_) fun ts =>
    .read .formalParameters fun ps => .read (.option ?_) fun r =>
    .result rfl (by simp)
  · exact .of_run fun s => .look fun _ => .only .typeParameters rfl rfl
  · exact .of_run fun s => .look fun _ => .only .resultMark rfl rfl

end KeyTrace.Grammar.Takes
