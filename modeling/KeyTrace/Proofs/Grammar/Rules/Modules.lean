/-
The rules for import and export statements.
-/
import KeyTrace.Grammar.Modules
import KeyTrace.Proofs.Grammar.Rules.Expressions

namespace KeyTrace.Grammar

open KeyTrace.Grammar.Parser

/-- The module of an import, if it is among some nodes, is named by a string. -/
def NamesSource (ns : List Node) : Prop := ∀ n ∈ ns, n.role = .source → n.kind = .string

namespace Takes

variable {i : Input} {sub : Sub}

theorem plainEnd : MayRead i plainEnd := .semicolon

theorem expressionEnd : MayRead i expressionEnd := .semicolon

theorem fromClause : Reads i fromClause := by
  unfold Grammar.fromClause
  exact .of_run fun s => .read .keyword fun _ => .read .stringLiteral fun s => .result rfl (by simp)

theorem exportName : Reads i exportName := .orElse .stringLiteral (.wordAs rfl)

theorem typeWord : Reads i typeWord := by
  unfold Grammar.typeWord
  exact .of_run fun s => .look fun _ => .look fun _ => .only (.orElse .keyword .keyword) rfl rfl

theorem specifierNames : Reads i specifierNames := by
  unfold Grammar.specifierNames
  refine .orElse ?_ ?_
  · exact .of_run fun s => .read .exportName fun n => .read .keyword fun _ => .read (.nameAs rfl)
      fun a => .result rfl (by simp)
  · exact .of_run fun s => .read (.nameAs rfl) fun n => .result rfl (by simp)

theorem importSpecifier : Reads i importSpecifier := by
  unfold Grammar.importSpecifier
  refine .of_run fun s => .here fun start => .orElse ?_ ?_
  · exact .read .typeWord fun _ => .read .specifierNames fun ns => .look fun _ => .node rfl (by simp)
  · exact .read .specifierNames fun ns => .look fun _ => .node rfl (by simp)

theorem namedImports : Reads i namedImports := by
  unfold Grammar.namedImports
  exact .of_run fun s => .here fun start => .read .sign fun _ =>
    .read (.sepBy .importSpecifier (.weaken .sign)) fun ss =>
    .ite (fun _ => .read (.test .sign) fun _ => .read .sign fun _ => .node rfl (by simp)) fun _ =>
    .read .sign fun _ => .node rfl (by simp)

theorem namespaceImport : Reads i namespaceImport := by
  unfold Grammar.namespaceImport
  exact .of_run fun s => .here fun start => .read .sign fun _ => .read .keyword fun _ =>
    .read (.nameAs rfl) fun n => .node rfl (by simp)

theorem importClause : Reads i importClause := by
  unfold Grammar.importClause
  have hmore : Reads i (do Parser.sign ','; Grammar.namespaceImport <|> Grammar.namedImports) :=
    .of_run fun s => .read .sign fun _ => .only (.orElse .namespaceImport .namedImports) rfl rfl
  refine .of_run fun s => .here fun start => .orElse ?_ ?_
  · exact .read (.orElse .namespaceImport .namedImports) fun c => .node rfl (by simp)
  · exact .read (.nameAs rfl) fun n => .read (.option hmore) fun more => .node rfl (by simp)

theorem requireClause : Reads i requireClause := by
  unfold Grammar.requireClause
  exact .of_run fun s => .here fun start => .look fun _ => .look fun _ => .read (.nameAs rfl) fun n =>
    .read .sign fun _ => .read .keyword fun _ => .read .sign fun _ => .read .stringLiteral fun s =>
    .read .sign fun _ => .node rfl (by simp)

theorem nestedName : Reads i nestedName := by
  unfold Grammar.nestedName
  refine .of_run fun s => .here fun start => .read (.nameAs rfl) fun first =>
    .readWith .dottedNames fun _ rest _ hrest => .ite (fun h => ?_) fun _ =>
    .nodeParts rfl (has_member _ (dottedNames_yields _ _ _ _ hrest)) (by simp)
  rw [List.isEmpty_iff] at h
  exact .merge <| .result rfl (by simp [h])

theorem importAlias : Reads i importAlias := by
  unfold Grammar.importAlias
  exact .of_run fun s => .here fun start => .look fun _ => .look fun _ => .read .keyword fun _ =>
    .read (.nameAs rfl) fun n => .read .sign fun _ => .read .nestedName fun m =>
    .read .plainEnd fun _ => .node rfl (by simp)

theorem exportSpecifier : Reads i exportSpecifier := by
  unfold Grammar.exportSpecifier
  have halias : Reads i (do Parser.keyword (text "as"); Grammar.exportName) :=
    .of_run fun s => .read .keyword fun _ => .only .exportName rfl rfl
  have hnames : Reads i (do
      let n ← Grammar.exportName
      let a ← option? (do Parser.keyword (text "as"); Grammar.exportName)
      Parser.guard ((← atSign ',') || (← atSign '\x7d'))
      return n.withRole .name :: (a.map (·.withRole .alias)).toList) :=
    .of_run fun s => .read .exportName fun n => .read (.option halias) fun a => .look fun _ =>
      .look fun _ => .look fun _ => .result rfl (by simp)
  refine .of_run fun s => .here fun start => .read (.orElse ?_ hnames) fun ns => .node rfl (by simp)
  exact .of_run fun s => .read .typeWord fun _ => .only hnames rfl rfl

theorem exportClause : Reads i exportClause := by
  unfold Grammar.exportClause
  exact .of_run fun s => .here fun start => .read .sign fun _ =>
    .read (.sepBy .exportSpecifier (.weaken .sign)) fun ss =>
    .ite (fun _ => .read (.test .sign) fun _ => .read .sign fun _ => .node rfl (by simp)) fun _ =>
    .read .sign fun _ => .node rfl (by simp)

section Goals

variable [SubReads i sub]

theorem importAttribute : Reads i (importAttribute sub) := by
  unfold Grammar.importAttribute
  exact .of_run fun s => .here fun start => .read (.orElse .keyword .keyword) fun _ =>
    .read .objectLiteral fun o => .node rfl (by simp)

theorem importBody : Reads i (importBody sub) := by
  unfold Grammar.importBody
  have hbody : Reads i ((do
        let c ← Grammar.importClause
        let s ← Grammar.fromClause
        return [c, s])
      <|> (do return [← Grammar.requireClause])
      <|> (do return [(← Grammar.stringLiteral).withRole .source])) := by
    refine .orElse ?_ (.orElse ?_ ?_)
    · exact .of_run fun s => .read .importClause fun c => .read .fromClause fun s =>
        .result rfl (by simp)
    · exact .of_run fun s => .read .requireClause fun c => .result rfl (by simp)
    · exact .of_run fun s => .read .stringLiteral fun s => .result rfl (by simp)
  exact .of_run fun s => .read hbody fun body => .read (.option .importAttribute) fun attributes =>
    .read .plainEnd fun _ => .result rfl (by simp)

omit [SubReads i sub] in
/-- What an import is from is a string. -/
theorem importBody_yields : Yields NamesSource (Grammar.importBody sub) := by
  have hstring : Yields (fun n : Node => n.kind = .string) Grammar.stringLiteral :=
    .skip fun _ => .skip fun _ => .skip fun _ => .skip fun _ => .skip fun _ => .node fun _ => rfl
  have hfrom : Yields (fun n : Node => n.kind = .string) Grammar.fromClause :=
    .skip fun _ => .bind hstring fun s hs => .pure ((kind_withRole _ s).trans hs)
  have hclause : Yields (fun n : Node => n.role = .none) Grammar.importClause :=
    .skip fun _ => .orElse (.skip fun _ => .node fun _ => rfl)
      (.skip fun _ => .skip fun _ => .node fun _ => rfl)
  have hrequire : Yields (fun n : Node => n.role = .none) Grammar.requireClause :=
    .skip fun _ => .skip fun _ => .skip fun _ => .skip fun _ => .skip fun _ => .skip fun _ =>
      .skip fun _ => .skip fun _ => .skip fun _ => .node fun _ => rfl
  have hattribute : Yields (fun n : Node => n.role = .none) (Grammar.importAttribute sub) :=
    .skip fun _ => .skip fun _ => .skip fun _ => .node fun _ => rfl
  have hnone {n : Node} (hn : n.role = .none) : n.role = .source → n.kind = .string :=
    fun h => Role.noConfusion (hn.symm.trans h)
  refine Yields.bind (P := NamesSource) (.orElse ?_ (.orElse ?_ ?_)) fun body hbody =>
    .bind (.option hattribute) fun a ha => .skip fun _ => .pure ?_
  · exact .bind hclause fun c hc => .bind hfrom fun s hs => .pure <|
      List.forall_mem_cons.2 ⟨hnone hc, List.forall_mem_cons.2 ⟨fun _ => hs, nofun⟩⟩
  · exact .bind hrequire fun c hc => .pure <| List.forall_mem_cons.2 ⟨hnone hc, nofun⟩
  · exact .bind hstring fun s hs => .pure <|
      List.forall_mem_cons.2 ⟨fun _ => (kind_withRole _ s).trans hs, nofun⟩
  · intro n hn
    rcases List.mem_append.1 hn with hn | hn
    · exact hbody n hn
    · exact hnone (ha n (by simpa using hn))

theorem importStatement : Reads i (importStatement sub) := by
  unfold Grammar.importStatement
  refine .of_run fun s => .here fun start => .read .keyword fun _ => .orElse ?_ ?_
  · exact .read .typeWord fun _ => .readWith .importBody fun _ body _ h =>
      .nodeImport rfl (by simp) (importBody_yields _ _ _ _ h)
  · exact .readWith .importBody fun _ body _ h =>
      .nodeImport rfl (by simp) (importBody_yields _ _ _ _ h)

theorem exportBody : Reads i (exportBody sub) := by
  unfold Grammar.exportBody
  have htypes : Reads i (do
      Parser.guard (← dialect).hasTypes
      Parser.keyword (text "type")
      Parser.guard (← atSign '\x7b')) :=
    .of_run fun s => .look fun _ => .look fun _ => .read .keyword fun _ => .look fun _ => .check rfl rfl
  refine .orElse ?_ (.orElse ?_ (.orElse ?_ (.orElse ?_ ?_)))
  · have hend {f : Frame} {s : Nat} {n : Option Node} (hf : f.begun = true)
        (hn : f.nodes = n.toList) : Run i .settled [f, .fresh s] (do
          let s ← Grammar.fromClause
          let a ← option? (Grammar.importAttribute sub)
          Grammar.plainEnd
          return n.toList ++ [s] ++ a.toList) .settled
          fun l : List Node => [⟨s, true, false, nodes l⟩] :=
      .read .fromClause fun s => .read (.option .importAttribute) fun a => .read .plainEnd fun _ =>
        .merge <| .result (by simp) (by simp [hn])
    -- the name of the whole module is one node with the star in front of it
    have hname {start s : Nat} : Run i .settled [⟨start, true, false, []⟩, .fresh s] (do
        Parser.keyword (text "as")
        let n ← Grammar.exportName
        node .clause start [n]) .settled fun n => [.whole start n, .fresh s] :=
      .read .keyword fun _ => .read .exportName fun n => .last <| .close rfl (by simp)
        fun n _ => .stay rfl
    exact .of_run fun s => .here fun start => .read .sign fun _ => .optionRun hname
      (fun n => hend rfl rfl) (hend rfl rfl)
  · exact .of_run fun s => .read (.test htypes) fun _ => .read .exportClause fun c =>
      .read (.option .fromClause) fun s => .read (.option .importAttribute) fun a =>
      .read .plainEnd fun _ => .result rfl (by simp)
  · exact .of_run fun s => .look fun _ => .look fun _ => .read .sign fun _ => .read .expressionIn
      fun e => .read .expressionEnd fun _ => .result rfl (by simp)
  · exact .of_run fun s => .look fun _ => .look fun _ => .read .keyword fun _ => .read .keyword
      fun _ => .read (.nameAs rfl) fun n => .read .plainEnd fun _ => .result rfl (by simp)
  · exact .of_run fun s => .read .importAlias fun n => .result rfl (by simp)

end Goals

end Takes

end KeyTrace.Grammar
