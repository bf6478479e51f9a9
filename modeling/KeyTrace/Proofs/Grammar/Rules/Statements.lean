/-
The rules for statements and declarations. A word or a brace stands in front of what
a statement with a scope consists of.
-/
import KeyTrace.Grammar.Statements
import KeyTrace.Proofs.Grammar.Rules.Modules

namespace KeyTrace.Grammar.Takes

open KeyTrace.Grammar.Parser

variable {i : Input} {sub : Sub}

theorem optionalEnd {afterExpression : Bool} : MayRead i (optionalEnd afterExpression) := by
  unfold Grammar.optionalEnd
  exact .of_run fun s => .read (.testOf .endHere) fun _ => .result rfl (by simp)

/-- A comment in the form of HTML is kept with the other comments. -/
theorem htmlComment : Reads i htmlComment := by
  intro c u c' hc h
  unfold Grammar.htmlComment at h
  split at h
  · next hr =>
    have hfirst : i.char c.pos = 60 ∨ i.char c.pos = 45 := by
      rw [Bool.or_eq_true] at hr
      exact hr.imp (fun h => beq_iff_eq.1 (Bool.and_eq_true_iff.1 h).1)
        fun h => beq_iff_eq.1 (Bool.and_eq_true_iff.1 h).1
    dsimp only at h
    generalize he : i.skipWhile (fun a => a != 0 && a != 10 && a != 0x2028 && a != 0x2029) c.pos = e at h
    have hlt : c.pos < e :=
      he ▸ Input.lt_skipWhile (by rcases hfirst with h | h <;> rw [h] <;> decide)
        (by rcases hfirst with h | h <;> rw [h] <;> decide)
    have hle : e ≤ i.chars.size := he ▸ (Input.skipWhile_le hc.within _).2
    have hfits : Fits i .settled
        { c with comments := .mk .none .htmlComment ⟨c.pos, e⟩ [] :: c.comments } :=
      ⟨hc.order, hc.within, List.forall_mem_cons.2 ⟨⟨rfl, .inr rfl, rfl, hlt, hle⟩, hc.comments⟩,
        hc.between⟩
    have hstep := step_advance hfits hlt hle h
    exact ⟨hstep.fits, hstep.last_le, hstep.pos_le, hstep.moves, hstep.row, hstep.whole⟩
  · cases h

section Goals

variable [SubReads i sub]

theorem statements : MayRead i (statements sub) := by
  unfold Grammar.statements
  refine .of_run fun s => .read (.many ?_) fun ss => .read (.many .htmlComment) fun _ =>
    .result rfl (by simp)
  exact .of_run fun s => .read (.many .htmlComment) fun _ => .only .statement (by simp) (by simp)

theorem blockGoal {inExpression : Bool} : Reads i (Grammar.block sub inExpression) := by
  unfold Grammar.block
  exact .of_run fun s => .here fun start => .read .sign fun _ => .lead rfl <| .read .statements
    fun ss => .read .sign fun _ => .read .optionalEnd fun _ =>
    .nodeScope rfl rfl (.inl rfl) (by simp)

theorem variableDeclarator {ctx : Context} : Reads i (variableDeclarator sub ctx) := by
  unfold Grammar.variableDeclarator
  have hsure {b : Bool} : Reads i (do
      Parser.guard b
      Parser.sign '!'
      Parser.guard (← atSign ':')) :=
    .of_run fun s => .look fun _ => .read .sign fun _ => .look fun _ => .check rfl rfl
  have htype {b : Bool} : Reads i (do Parser.guard b; Grammar.typeMark sub) :=
    .of_run fun s => .look fun _ => .only .typeMark rfl rfl
  have hvalue {b : Bool} : Reads i (do Parser.guard b; Grammar.initializer sub ctx) :=
    .of_run fun s => .look fun _ => .only .initializer rfl rfl
  exact .of_run fun s => .here fun start => .look fun types => .read .bindingTarget fun n =>
    .read (.test hsure) fun sure => .read (.option htype) fun t => .read (.option hvalue) fun v =>
    .nodeParts rfl ⟨n.kind, _, by simp; rfl⟩ (by simp)

theorem declarators {ctx : Context} : Reads i (declarators sub ctx) := by
  unfold Grammar.declarators
  exact .of_run fun s => .read (.sepBy1 .variableDeclarator (.weaken .sign)) fun ds =>
    .result rfl (by simp)

theorem variableDeclaration : Reads i (variableDeclaration sub) := by
  unfold Grammar.variableDeclaration
  have hword : Reads i ((do Parser.keyword (text "var"); return false)
      <|> (do Parser.keyword (text "const"); return true)
      <|> (do
        Parser.keyword (text "let")
        Parser.guard (!(← mayEnd ⟨true, false⟩))
        return true)) := by
    refine .orElse ?_ (.orElse ?_ ?_)
    · exact .of_run fun s => .read .keyword fun _ => .result rfl (by simp)
    · exact .of_run fun s => .read .keyword fun _ => .result rfl (by simp)
    · exact .of_run fun s => .read .keyword fun _ => .look fun _ => .look fun _ =>
        .result rfl (by simp)
  exact .of_run fun s => .here fun start => .read hword fun lexical => .read .declarators
    fun (ds, valued) => .read .semicolon fun _ => .node (by split <;> rfl) (by simp)

theorem usingDeclaration : Reads i (usingDeclaration sub) := by
  unfold Grammar.usingDeclaration
  exact .of_run fun s => .here fun start => .look fun _ => .look fun _ => .read (.test .keyword)
    fun _ => .read .keyword fun _ => .look fun _ => .look fun _ => .read .declarators
    fun (ds, valued) => .read .semicolon fun _ => .node rfl (by simp)

theorem functionDeclaration : Reads i (functionDeclaration sub) := by
  unfold Grammar.functionDeclaration
  have hasync : Reads i (do
      Parser.keyword (text "async")
      Parser.guard (!(← mayEnd ⟨true, false⟩))) :=
    .of_run fun s => .read .keyword fun _ => .look fun _ => .check rfl rfl
  refine .of_run fun s => .here fun start => .read (.test hasync) fun _ => .read .keyword fun _ =>
    .lead rfl <| .read (.test .sign) fun star => .read (.nameAs rfl) fun n => .read .callSignature
    fun cs => .option .block (fun b => ?_) ?_
  · exact .read .optionalEnd fun _ => .nodeScope rfl (by cases star <;> rfl) (.inl rfl) (by simp)
  · exact .look fun _ => .look fun _ => .read .semicolon fun _ => .node rfl (by simp)

theorem classDeclaration : Reads i (classDeclaration sub) := by
  unfold Grammar.classDeclaration
  have habstract : Reads i (do
      Parser.guard (← dialect).hasTypes
      Parser.keyword (text "abstract")) :=
    .of_run fun s => .look fun _ => .look fun _ => .only .keyword rfl rfl
  refine .of_run fun s => .here fun start => .read (.many .decorator) fun ds =>
    .read (.test habstract) fun abstract => .read .classTail fun parts => .ite (fun _ => ?_) fun _ => ?_
  · exact .read .optionalEnd fun _ => .node (by split <;> rfl) (by simp)
  · exact .node (by split <;> rfl) (by simp)

theorem typeAlias : Reads i (typeAlias sub) := by
  unfold Grammar.typeAlias
  exact .of_run fun s => .here fun start => .read .keyword fun _ => .look fun _ => .look fun _ =>
    .read (.nameAs rfl) fun n => .read (.option .typeParameters) fun ps => .read .sign fun _ =>
    .read .type fun t => .read .plainEnd fun _ => .node rfl (by simp)

theorem interfaceDeclaration : Reads i (interfaceDeclaration sub) := by
  unfold Grammar.interfaceDeclaration
  have hbases : Reads i (do
      Parser.keyword (text "extends")
      Parser.sepBy1 (Grammar.typeName sub) (Parser.sign ',')) :=
    .of_run fun s => .read .keyword fun _ => .only (.sepBy1 .typeName (.weaken .sign)) rfl rfl
  exact .of_run fun s => .here fun start => .read .keyword fun _ => .read (.nameAs rfl) fun n =>
    .read (.option .typeParameters) fun ps => .read (.option hbases) fun bases =>
    .read .objectType fun b => .node rfl (by cases bases <;> simp)

theorem enumMember : Reads i (enumMember sub) := by
  unfold Grammar.enumMember
  exact .of_run fun s => .here fun start => .read .propertyName fun n =>
    .option .initializer (fun v => .node rfl (by simp)) <| .merge <| .result rfl (by simp)

theorem enumDeclaration : Reads i (enumDeclaration sub) := by
  unfold Grammar.enumDeclaration
  exact .of_run fun s => .here fun start => .read (.test .keyword) fun _ => .read .keyword fun _ =>
    .read (.nameAs rfl) fun n => .here fun inner => .read .sign fun _ =>
    .read (.sepBy .enumMember (.weaken .sign)) fun ms =>
    .ite (fun _ => .read (.test .sign) fun _ => .read .sign fun _ => .close rfl (by simp)
      fun b _ => .merge <| .node rfl (by simp)) fun _ => .read .sign fun _ => .close rfl (by simp)
      fun b _ => .merge <| .node rfl (by simp)

theorem moduleDeclaration : Reads i (moduleDeclaration sub) := by
  unfold Grammar.moduleDeclaration
  exact .of_run fun s => .here fun start => .read (.orElse .keyword .keyword) fun _ => .look fun _ =>
    .look fun _ => .read (.orElse .stringLiteral .nestedName) fun n => .read (.option .block) fun b =>
    .node rfl (by simp)

theorem typedDeclaration : Reads i (typedDeclaration sub) :=
  .orElse .typeAlias <| .orElse .interfaceDeclaration <| .orElse .enumDeclaration <|
    .orElse .moduleDeclaration .importAlias

theorem ambientDeclaration : Reads i (ambientDeclaration sub) := by
  unfold Grammar.ambientDeclaration
  have hdeclared : Reads i (Grammar.functionDeclaration sub <|> Grammar.classDeclaration sub
      <|> Grammar.typedDeclaration sub <|> Grammar.variableDeclaration sub) :=
    .orElse .functionDeclaration <| .orElse .classDeclaration <| .orElse .typedDeclaration
      .variableDeclaration
  refine .of_run fun s => .here fun start => .read .keyword fun _ => .look fun _ => .look fun _ =>
    .orElse ?_ (.orElse ?_ ?_)
  · exact .read .keyword fun _ => .read .block fun b => .node rfl (by simp)
  · exact .read .keyword fun _ => .read .sign fun _ => .read (.wordAs rfl) fun n => .read .typeMark
      fun t => .read .plainEnd fun _ => .node rfl (by simp)
  · exact .read hdeclared fun d => .node rfl (by simp)

theorem declaration : Reads i (declaration sub) := by
  refine .orElse .functionDeclaration <| .orElse .classDeclaration <| .orElse ?_ <|
    .orElse .usingDeclaration .variableDeclaration
  exact .of_run fun s => .look fun _ => .look fun _ =>
    .only (.orElse .typedDeclaration .ambientDeclaration) rfl rfl

theorem expressionStatement : Reads i (expressionStatement sub) := by
  unfold Grammar.expressionStatement
  exact .of_run fun s => .here fun start => .read .expressions fun e => .read .expressionEnd fun _ =>
    .node rfl (by simp)

theorem exportStatement : Reads i (exportStatement sub) := by
  unfold Grammar.exportStatement
  have hdeclaration : Reads i (do return [(← Grammar.declaration sub).withRole .declaration]) :=
    .of_run fun s => .read .declaration fun d => .result rfl (by simp)
  have hvalue : Reads i (do
      let e ← sub.expressionIn .final
      Grammar.expressionEnd
      return [e.withRole .value]) :=
    .of_run fun s => .read .expressionIn fun e => .read .expressionEnd fun _ => .result rfl (by simp)
  have hbody {b : Bool} : Reads i ((do Parser.guard b; Grammar.exportBody sub)
      <|> (do
        Parser.keyword (text "default")
        (do return [(← Grammar.declaration sub).withRole .declaration])
        <|> (do
          let e ← sub.expressionIn .final
          Grammar.expressionEnd
          return [e.withRole .value]))
      <|> (do return [(← Grammar.declaration sub).withRole .declaration])) := by
    refine .orElse ?_ (.orElse ?_ hdeclaration)
    · exact .of_run fun s => .look fun _ => .only .exportBody rfl rfl
    · exact .of_run fun s => .read .keyword fun _ => .only (.orElse hdeclaration hvalue) rfl rfl
  exact .of_run fun s => .here fun start => .read (.many .decorator) fun ds => .read .keyword fun _ =>
    .read hbody fun body => .node rfl (by simp)

theorem ifStatement : Reads i (ifStatement sub) := by
  unfold Grammar.ifStatement
  have hno : Reads i (do
      let start ← here
      Parser.keyword (text "else")
      let s ← sub .statement
      node .clause start [s]) :=
    .of_run fun s => .here fun start => .read .keyword fun _ => .read .statement fun s =>
      .node rfl (by simp)
  exact .of_run fun s => .here fun start => .read .keyword fun _ => .read .parenthesized fun c =>
    .read .statement fun yes => .read (.option hno) fun no => .node rfl (by simp)

theorem switchCase : Reads i (switchCase sub) := by
  unfold Grammar.switchCase
  have hlabel : Reads i ((do
        Parser.keyword (text "case")
        return [(← Grammar.expressions sub .inner).withRole .value])
      <|> (do Parser.keyword (text "default"); return [])) := by
    refine .orElse ?_ ?_
    · exact .of_run fun s => .read .keyword fun _ => .read .expressions fun e => .result rfl (by simp)
    · exact .of_run fun s => .read .keyword fun _ => .result rfl (by simp)
  have hstatement : Reads i (do
      let _ ← Parser.many Grammar.htmlComment
      Parser.guard (!(← atKeyword (text "case")) && !(← atKeyword (text "default")))
      sub .statement) :=
    .of_run fun s => .read (.many .htmlComment) fun _ => .look fun _ => .look fun _ => .look fun _ =>
      .only .statement (by simp) (by simp)
  exact .of_run fun s => .here fun start => .read hlabel fun v => .read .sign fun _ =>
    .read (.many hstatement) fun ss => .node rfl (by simp)

theorem switchBody : Reads i (switchBody sub) := by
  unfold Grammar.switchBody
  exact .of_run fun s => .here fun start => .read .sign fun _ => .lead rfl <|
    .read (.many .switchCase) fun cs => .read .sign fun _ => .nodeScope rfl rfl (.inl rfl) (by simp)

theorem switchStatement : Reads i (switchStatement sub) := by
  unfold Grammar.switchStatement
  exact .of_run fun s => .here fun start => .read .keyword fun _ => .read .parenthesized fun v =>
    .read .switchBody fun b => .node rfl (by simp)

theorem forInHead : Reads i (forInHead sub) := by
  unfold Grammar.forInHead
  have hcollection : Reads i (do
      Parser.keyword (text "in") <|> Parser.keyword (text "of")
      let e ← Grammar.expressions sub .inner
      Parser.sign ')'
      return e.withRole .right) :=
    .of_run fun s => .read (.orElse .keyword .keyword) fun _ => .read .expressions fun e =>
      .read .sign fun _ => .result rfl (by simp)
  have hword : Reads i ((do Parser.keyword (text "var"); return .var)
      <|> (do Parser.keyword (text "let"); return .lets)
      <|> (do Parser.keyword (text "const"); return DeclarationWord.const)) := by
    refine .orElse ?_ (.orElse ?_ ?_)
    all_goals exact .of_run fun s => .read .keyword fun _ => .result rfl (by simp)
  have hvalue {b : Bool} : Reads i (do
      Parser.guard b
      Grammar.initializer sub { Context.inner with noIn := true }) :=
    .of_run fun s => .look fun _ => .only .initializer rfl rfl
  have htarget : Reads i ((do
        let p ← Grammar.parenthesized sub
        Parser.guard ((← atKeyword (text "in")) || (← atKeyword (text "of")))
        return p) <|> sub (.pattern true)) := by
    refine .orElse ?_ .pattern
    exact .of_run fun s => .read .parenthesized fun p => .look fun _ => .look fun _ => .look fun _ =>
      .result rfl (by simp)
  refine .of_run fun s => .read .sign fun _ => .orElse ?_ ?_
  · exact .read hword fun w => .read .bindingTarget fun t => .read (.option hvalue) fun v =>
      .read hcollection fun c => .result rfl (by simp)
  · exact .read htarget fun t => .read hcollection fun c => .result rfl (by simp)

theorem forInStatement : Reads i (forInStatement sub) := by
  unfold Grammar.forInStatement
  exact .of_run fun s => .here fun start => .read .keyword fun _ => .lead rfl <|
    .read (.test .keyword) fun _ => .read .forInHead fun (w, head) => .read .statement fun b =>
    .nodeScope rfl rfl (.inl rfl) (by simp)

/-- A part of a loop's head, which may be empty. -/
theorem forClause : Reads i ((do Parser.sign ';'; return []) <|> (do
    let e ← Grammar.expressions sub .inner
    Parser.sign ';'
    return [e])) := by
  refine .orElse ?_ ?_
  · exact .of_run fun s => .read .sign fun _ => .result rfl (by simp)
  · exact .of_run fun s => .read .expressions fun e => .read .sign fun _ => .result rfl (by simp)

/-- The first part of a loop's head, which may declare variables. -/
theorem forFirst : Reads i ((do
      let d ← here
      let lexical ← (do Parser.keyword (text "var"); return false)
        <|> (do Parser.keyword (text "let") <|> Parser.keyword (text "const"); return true)
      let (ds, _) ← Grammar.declarators sub .inner
      Parser.sign ';'
      return [← node (if lexical then .lexicalDeclaration else .variableDeclaration) d ds])
    <|> (do Parser.sign ';'; return []) <|> (do
      let e ← Grammar.expressions sub .inner
      Parser.sign ';'
      return [e])) := by
  have hlexical : Reads i ((do Parser.keyword (text "var"); return false)
      <|> (do Parser.keyword (text "let") <|> Parser.keyword (text "const"); return true)) := by
    refine .orElse ?_ ?_
    · exact .of_run fun s => .read .keyword fun _ => .result rfl (by simp)
    · exact .of_run fun s => .read (.orElse .keyword .keyword) fun _ => .result rfl (by simp)
  refine .orElse ?_ forClause
  refine .of_run fun s => .here fun d => .read hlexical fun lexical => .read .declarators ?_
  rintro ⟨ds, valued⟩
  exact .read .sign fun _ => .close (by split <;> rfl) (by simp) fun n _ =>
    .merge <| .result rfl (by simp)

theorem forStatement : Reads i (forStatement sub) := by
  unfold Grammar.forStatement
  exact .of_run fun s => .here fun start => .read .keyword fun _ => .lead rfl <| .read .sign fun _ =>
    .read forFirst fun first => .read forClause fun condition => .read (.option .expressions) fun step =>
    .read .sign fun _ => .read .statement fun b => .nodeScope rfl rfl (.inl rfl) (by simp)

theorem whileStatement : Reads i (whileStatement sub) := by
  unfold Grammar.whileStatement
  exact .of_run fun s => .here fun start => .read (.orElse .keyword .keyword) fun _ =>
    .read .parenthesized fun c => .read .statement fun b => .node rfl (by simp)

theorem doStatement : Reads i (doStatement sub) := by
  unfold Grammar.doStatement
  exact .of_run fun s => .here fun start => .read .keyword fun _ => .read .statement fun b =>
    .read .keyword fun _ => .read .parenthesized fun c => .read (.testOf .plainEnd) fun _ =>
    .node rfl (by simp)

theorem catchClause : Reads i (catchClause sub) := by
  unfold Grammar.catchClause
  have htype : Reads i (do Parser.guard (← dialect).hasTypes; Grammar.typeMark sub) :=
    .of_run fun s => .look fun _ => .look fun _ => .only .typeMark rfl rfl
  have hparameter : Reads i (do
      Parser.sign '('
      let p ← Grammar.bindingTarget sub
      let t ← option? (do Parser.guard (← dialect).hasTypes; Grammar.typeMark sub)
      Parser.sign ')'
      return p.withRole .parameter :: t.toList) :=
    .of_run fun s => .read .sign fun _ => .read .bindingTarget fun p => .read (.option htype) fun t =>
      .read .sign fun _ => .result rfl (by simp)
  exact .of_run fun s => .here fun start => .read .keyword fun _ => .lead rfl <|
    .read (.option hparameter) fun p => .read .block fun b =>
    .nodeScope rfl rfl (.inl rfl) (by cases p <;> simp)

theorem tryStatement : Reads i (tryStatement sub) := by
  unfold Grammar.tryStatement
  have hfinally : Reads i (do
      let start ← here
      Parser.keyword (text "finally")
      let b ← sub (.block false)
      node .clause start [b.withRole .body]) :=
    .of_run fun s => .here fun start => .read .keyword fun _ => .read .block fun b =>
      .node rfl (by simp)
  exact .of_run fun s => .here fun start => .read .keyword fun _ => .read .block fun b =>
    .read (.option .catchClause) fun c => .read (.option hfinally) fun f => .node rfl (by simp)

theorem jumpStatement : Reads i (jumpStatement sub) := by
  unfold Grammar.jumpStatement
  refine .of_run fun s => .here fun start => .orElse ?_ (.orElse ?_ (.orElse ?_ ?_))
  · refine .read .keyword fun _ => .orElse ?_ ?_
    · exact .read .plainEnd fun _ => .node rfl (by simp)
    · exact .read .expressions fun e => .read .expressionEnd fun _ => .node rfl (by simp)
  · exact .read .keyword fun _ => .read .expressions fun e => .read .expressionEnd fun _ =>
      .node rfl (by simp)
  · refine .read (.orElse .keyword .keyword) fun _ => .orElse ?_ ?_
    · exact .read .plainEnd fun _ => .node rfl (by simp)
    · exact .read (.nameAs rfl) fun l => .read .plainEnd fun _ => .node rfl (by simp)
  · exact .read .keyword fun _ => .read .plainEnd fun _ => .node rfl (by simp)

theorem labeledStatement : Reads i (labeledStatement sub) := by
  unfold Grammar.labeledStatement
  exact .of_run fun s => .here fun start => .read (.nameAs rfl) fun l => .read .sign fun _ =>
    .read .statement fun s => .node rfl (by simp)

theorem bracedStatement : Reads i (bracedStatement sub) := by
  unfold Grammar.bracedStatement
  exact .of_run fun s => .look fun property => .ite
    (fun _ => .only (.orElse .expressionStatement .block) rfl rfl) fun _ =>
    .only (.orElse .block .expressionStatement) rfl rfl

theorem statementGoal : Reads i (Grammar.statement sub) := by
  unfold Grammar.statement
  have hguard {b : Bool} {p : Parser Node} (hp : Reads i p) : Reads i (do Parser.guard b; p) :=
    .of_run fun s => .look fun _ => .only hp rfl rfl
  refine .of_run fun s => .here fun start => .look fun c =>
    .ite (fun _ => .merge <| .only .bracedStatement rfl rfl) fun _ =>
    .ite (fun _ => .read .sign fun _ => .node rfl (by simp)) fun _ =>
    .ite (fun _ => .merge <| .only
      (.orElse .exportStatement <| .orElse .classDeclaration .expressionStatement) rfl rfl) fun _ =>
    .ite (fun _ => .merge <| .only .expressionStatement rfl rfl) fun _ => .look fun w => .look fun d =>
    .ite (fun _ => .merge <| .only .exportStatement rfl rfl) fun _ =>
    .ite (fun _ => .merge <| .only
      (.orElse .importStatement <| .orElse (hguard .importAlias) .expressionStatement) rfl rfl) fun _ =>
    .ite (fun _ => .merge <| .only .ifStatement rfl rfl) fun _ =>
    .ite (fun _ => .merge <| .only (.orElse .forInStatement .forStatement) rfl rfl) fun _ =>
    .ite (fun _ => .merge <| .only .whileStatement rfl rfl) fun _ =>
    .ite (fun _ => .merge <| .only .doStatement rfl rfl) fun _ =>
    .ite (fun _ => .merge <| .only .switchStatement rfl rfl) fun _ =>
    .ite (fun _ => .merge <| .only .tryStatement rfl rfl) fun _ =>
    .ite (fun _ => .merge <| .only .jumpStatement rfl rfl) fun _ =>
    .ite (fun _ => .merge <| .only .variableDeclaration rfl rfl) fun _ =>
    .ite (fun _ => .merge <| .only
      (.orElse .variableDeclaration (hguard .enumDeclaration)) rfl rfl) fun _ =>
    .ite (fun _ => .merge <| .only .typedDeclaration rfl rfl) fun _ => .merge <| .only
      (.orElse .labeledStatement <| .orElse .declaration .expressionStatement) rfl rfl

end Goals

end KeyTrace.Grammar.Takes
