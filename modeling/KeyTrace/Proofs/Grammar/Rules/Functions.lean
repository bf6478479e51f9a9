/-
The rules for functions, methods, classes and object literals. Every node that a
scope can belong to has something in front of its first part, or several parts.
-/
import KeyTrace.Grammar.Functions
import KeyTrace.Proofs.Grammar.Rules.Patterns
import KeyTrace.Proofs.Grammar.Rules.Types

namespace KeyTrace.Grammar.Takes

open KeyTrace.Grammar.Parser

variable {i : Input} {sub : Sub} [SubReads i sub]

theorem methodDefinition : Reads i (methodDefinition sub) := by
  unfold Grammar.methodDefinition
  refine .of_run fun s => .here fun start => .look fun types => .read .modifiers fun _ =>
    .read (.test .sign) fun _ => .read .propertyName fun n => .ite (fun _ => ?_) fun _ => ?_
  · exact .read (.test .sign) fun _ => .read .callSignature fun cs => .read .block fun b =>
      .nodeScope rfl rfl (.inr (by simp)) (by simp)
  · exact .read .callSignature fun cs => .read .block fun b =>
      .nodeScope rfl rfl (.inr (by simp)) (by simp)

theorem objectMember : Reads i (objectMember sub) := by
  unfold Grammar.objectMember
  refine .orElse ?_ (.orElse ?_ (.orElse ?_ .methodDefinition))
  · exact .of_run fun s => .here fun start => .read (.symbol (by decide)) fun _ =>
      .read .expression fun e => .node rfl (by simp)
  · exact .of_run fun s => .here fun start => .read .propertyName fun k => .read .sign fun _ =>
      .read .expression fun v => .node rfl (by simp)
  · exact .of_run fun s => .read (.nameAs rfl) fun k => .look fun _ => .look fun _ => .look fun _ =>
      .result rfl (by simp)

theorem objectLiteral : Reads i (objectLiteral sub) := by
  unfold Grammar.objectLiteral
  exact .of_run fun s => .here fun start => .read .sign fun _ => .read (.elements .objectMember)
    fun ms => .read .sign fun _ => .node rfl (by simp)

theorem arrayLiteral : Reads i (arrayLiteral sub) := by
  unfold Grammar.arrayLiteral
  exact .of_run fun s => .here fun start => .read .sign fun _ => .read (.elements .spreadable)
    fun es => .read .sign fun _ => .node rfl (by simp)

theorem functionExpression : Reads i (functionExpression sub) := by
  unfold Grammar.functionExpression
  exact .of_run fun s => .here fun start => .read (.test .keyword) fun _ => .read .keyword fun _ =>
    .lead rfl <| .read (.test .sign) fun star => .read (.option (.nameAs rfl)) fun n =>
    .read .callSignature fun cs => .read .block fun b =>
    .nodeScope rfl (by cases star <;> rfl) (.inl rfl) (by simp)

theorem arrowBody {ctx : Context} : Reads i (arrowBody sub ctx) := by
  unfold Grammar.arrowBody
  exact .of_run fun s => .read (.symbol (by decide)) fun _ => .look fun _ =>
    .ite (fun _ => .only (.orElse .block .expressionIn) rfl rfl) fun _ => .only .expressionIn rfl rfl

/-- What stands in front of an arrow function belongs to it. -/
theorem plainArrow {ctx : Context} {f : Frame} {s : Nat} (hf : f.nodes = []) :
    Run i .settled [f, .fresh s] (Grammar.plainArrow sub ctx f.start) .settled
      fun n : Node => [⟨s, true, false, [n]⟩] := by
  unfold Grammar.plainArrow
  refine .orElse ?_ ?_
  · exact .read .nameLeaf fun p => .read .arrowBody fun b =>
      .nodeScope (by simp) rfl (.inr (by simp)) (by simp [hf])
  · refine .read .callSignature fun cs => ?_
    cases cs with
    | nil =>
      exact .lead (by simp) <| .read .arrowBody fun b => .nodeScope rfl rfl (.inl rfl) (by simp)
    | cons n cs =>
      exact .read .arrowBody fun b => .nodeScope (by simp) rfl (.inr (by simp)) (by simp [hf])

theorem arrowFunction {ctx : Context} : Reads i (arrowFunction sub ctx) := by
  unfold Grammar.arrowFunction
  refine .of_run fun s => .here fun start => .orElse ?_ (plainArrow rfl)
  exact .read .keyword fun _ => .look fun _ => .look fun _ => plainArrow rfl

omit [SubReads i sub] in
theorem fieldEnd {afterExpression : Bool} : MayRead i (fieldEnd afterExpression) := by
  unfold Grammar.fieldEnd
  exact .of_run fun s => .look fun _ => .ite
    (fun _ => .only (.orElse (.weaken .sign) .semicolon) rfl rfl) fun _ => .only .semicolon rfl rfl

theorem classField : Reads i (classField sub) := by
  unfold Grammar.classField
  have hmark {types : Bool} : Reads i (do Parser.guard types; Parser.sign '?' <|> Parser.sign '!') :=
    .of_run fun s => .look fun _ => .only (.orElse .sign .sign) rfl rfl
  have hsignature {types : Bool} :
      Reads i (do Parser.guard types; Grammar.callSignature sub true) :=
    .of_run fun s => .look fun _ => .only .callSignature rfl rfl
  have htype {types : Bool} : Reads i (do Parser.guard types; Grammar.typeMark sub) :=
    .of_run fun s => .look fun _ => .only .typeMark rfl rfl
  refine .of_run fun s => .here fun start => .look fun types => .read (.many .decorator) fun ds =>
    .read .modifiers fun _ => .read (.test .sign) fun _ => .read .propertyName fun n =>
    .read (.test hmark) fun _ => .option hsignature (fun cs => ?_) ?_
  · exact .close rfl (by simp) fun m _ => .merge <| .read .fieldEnd fun _ => .result rfl (by simp)
  · exact .read (.option htype) fun t => .read (.option .initializer) fun v =>
      .close rfl (by simp) fun m _ => .merge <| .read .fieldEnd fun _ => .result rfl (by simp)

theorem staticBlock : Reads i (staticBlock sub) := by
  unfold Grammar.staticBlock
  exact .of_run fun s => .here fun start => .read .keyword fun _ => .read .block fun b =>
    .node rfl (by simp)

theorem classMethod : Reads i (classMethod sub) := by
  unfold Grammar.classMethod
  exact .of_run fun s => .read (.many .decorator) fun ds => .read .methodDefinition fun m =>
    .result rfl (by simp)

theorem classMember : Reads i (classMember sub) := by
  unfold Grammar.classMember
  refine .orElse ?_ (.orElse ?_ (.orElse .classMethod (.orElse ?_ ?_)))
  · exact .of_run fun s => .read .sign fun _ => .result rfl (by simp)
  · exact .of_run fun s => .read .staticBlock fun b => .result rfl (by simp)
  · exact .of_run fun s => .look fun _ => .look fun _ => .read (.test .keyword) fun _ =>
      .read .indexSignature fun m => .read .fieldEnd fun _ => .result rfl (by simp)
  · exact .of_run fun s => .read .classField fun m => .result rfl (by simp)

theorem classBody : Reads i (classBody sub) := by
  unfold Grammar.classBody
  exact .of_run fun s => .here fun start => .read .sign fun _ => .read (.many .classMember) fun ms =>
    .read (.many .decorator) fun ds => .read .sign fun _ => .node rfl (by simp)

theorem baseClass : Reads i (baseClass sub) := by
  unfold Grammar.baseClass
  exact .of_run fun s => .read .operation fun e => .read (.option .dialectArguments) fun ts =>
    .result rfl (by simp)

theorem classHeritage : MayRead i (classHeritage sub) := by
  unfold Grammar.classHeritage
  have hbases {types : Bool} : Reads i (do
      Parser.keyword (text "extends")
      if types then Parser.sepBy1 (Grammar.baseClass sub) (Parser.sign ',')
      else return [← Grammar.baseClass sub]) :=
    .of_run fun s => .read .keyword fun _ =>
      .ite (fun _ => .only (.sepBy1 .baseClass (.weaken .sign)) rfl rfl) fun _ =>
      .read .baseClass fun b => .result rfl (by simp)
  have hinterfaces {types : Bool} : Reads i (do
      Parser.guard types
      Parser.keyword (text "implements")
      Parser.sepBy1 (sub .type) (Parser.sign ',')) :=
    .of_run fun s => .look fun _ => .read .keyword fun _ => .only (.sepBy1 .type (.weaken .sign)) rfl rfl
  refine .of_run fun s => .here fun start => .look fun types => .option hbases (fun bs => ?_)
    (.option hinterfaces (fun ts => ?_) ?_)
  · refine .read (.option hinterfaces) fun ts => .ite (fun h => .merge <| .result rfl ?_) fun _ =>
      .close rfl (by cases ts <;> simp) fun n _ => .merge <| .result rfl (by simp)
    cases ts <;> simpa using h
  · exact .ite (fun h => .merge <| .result rfl (by simpa using h)) fun _ =>
      .close rfl (by simp) fun n _ => .merge <| .result rfl (by simp)
  · exact .ite (fun h => .merge <| .result rfl (by simp)) fun h => absurd rfl h

theorem classTail {nameNeeded : Bool} : Reads i (classTail sub nameNeeded) := by
  unfold Grammar.classTail
  have hname {types : Bool} : Reads i (do
      Parser.guard (!(← atKeyword (text "extends")) && !(types && (← atKeyword (text "implements"))))
      Grammar.nameAs (if types then .typeIdentifier else .identifier)) :=
    .of_run fun s => .look fun _ => .look fun _ => .look fun _ =>
      .only (.nameAs (by split <;> rfl)) rfl rfl
  have hparameters {types : Bool} : Reads i (do Parser.guard types; Grammar.typeParameters sub) :=
    .of_run fun s => .look fun _ => .only .typeParameters rfl rfl
  exact .of_run fun s => .look fun types => .read .keyword fun _ => .read (.option hname) fun n =>
    .look fun _ => .read (.option hparameters) fun ts => .read .classHeritage fun heritage =>
    .read .classBody fun b => .result rfl (by simp)

theorem classExpression : Reads i (classExpression sub) := by
  unfold Grammar.classExpression
  exact .of_run fun s => .here fun start => .read (.many .decorator) fun ds => .read .classTail
    fun parts => .node rfl (by simp)

end KeyTrace.Grammar.Takes
