/-
The rules for types.
-/
import KeyTrace.Grammar.Types
import KeyTrace.Proofs.Grammar.Rules.Signatures

namespace KeyTrace.Grammar

open KeyTrace.Grammar.Parser

namespace Takes

variable {i : Input} {sub : Sub} [SubReads i sub]

theorem functionType : Reads i (functionType sub) := by
  unfold Grammar.functionType
  exact .of_run fun s => .here fun start => .read (.option .typeParameters) fun ts =>
    .read .formalParameters fun ps => .read (.symbol (by decide)) fun _ => .read .resultType fun r =>
    .node rfl (by simp)

theorem constructorType : Reads i (constructorType sub) := by
  unfold Grammar.constructorType
  exact .of_run fun s => .here fun start => .read (.test .keyword) fun _ => .read .keyword fun _ =>
    .read (.option .typeParameters) fun ts => .read .formalParameters fun ps =>
    .read (.symbol (by decide)) fun _ => .read .type fun r => .node rfl (by simp)

theorem importCall : Reads i (importCall sub) := by
  unfold Grammar.importCall
  exact .of_run fun s => .here fun start => .read (.keywordAs rfl) fun f => .read .arguments
    fun args => .nodeParts rfl (has_call [] nofun) (by simp)

theorem querySuffixes {start : Nat} : ∀ {n : Nat} {left : Node},
    Extends i start left (Grammar.querySuffixes sub start n left)
  | 0, left => .done rfl rfl rfl rfl
  | n + 1, left => by
    unfold Grammar.querySuffixes
    refine .test (.orElse (.symbol (by decide)) ?_) (fun _ => ?_) ?_
    · exact .of_run fun s => .look fun _ => .look fun _ => .only .sign rfl rfl
    · refine .readWith .memberName fun _ p _ hp => .closeParts rfl (has_member [p] ?_)
        (by simp) fun m _ => querySuffixes
      simpa using memberName_yields _ _ _ _ hp
    · refine .look fun _ => .look fun _ => .ite (fun _ => ?_) fun _ => .look fun _ => .look fun _ =>
        .ite (fun _ => ?_) fun _ => .done rfl rfl rfl rfl
      · refine .read (.option ?_) fun k => ?_
        · exact .of_run fun s => .read .sign fun _ =>
            .read (.orElse .stringLiteral (.orElse .numberLiteral (.wordAs rfl))) fun k =>
            .read .sign fun _ => .result rfl (by simp)
        · cases k with
          | some k => exact .close rfl (by simp) fun m _ => querySuffixes
          | none => exact .done rfl rfl rfl (by simp)
      · exact .read .arguments fun args => .closeParts rfl (has_call [] nofun) (by simp)
          fun m _ => querySuffixes

theorem allQuerySuffixes {start : Nat} {left : Node} : Extends i start left
    (fun i => Grammar.querySuffixes sub start (i.chars.size + 1) left i) := fun c a c' hc hs h =>
  querySuffixes (n := i.chars.size + 1) c a c' hc hs h

/-- The types that a query is applied to. -/
theorem sameLineArguments : Reads i (do Parser.guard (← sameLine); Grammar.typeArguments sub) :=
  .of_run fun _ => .look fun _ => .look fun _ => .only .typeArguments rfl rfl

theorem typeQuery : Reads i (typeQuery sub) := by
  unfold Grammar.typeQuery
  exact .of_run fun s => .here fun start => .read .keyword fun _ => .here fun inner =>
    .read (.orElse .importCall (.orElse (.keywordAs rfl) (.nameAs rfl))) fun first =>
    .extend allQuerySuffixes rfl fun q => .merge <| .read (.option .sameLineArguments) fun ts =>
    .node rfl (by simp)

omit [SubReads i sub] in
theorem dropLast_append_getLast? (l : List Node) : l.dropLast ++ l.getLast?.toList = l := by
  cases h : l.getLast? with
  | none => rw [List.getLast?_eq_none_iff.1 h]; rfl
  | some n => exact List.dropLast_append_getLast? n h

/-- The arguments after the name of a type, if there are any. -/
theorem namedTypeEnd (start s : Nat) (name : Node) :
    Run i .settled [.whole start name, .fresh s] (do
      match ← option? (Grammar.typeArguments sub) with
      | some ts => node .typeSyntax start [name, ts]
      | none => return name) .settled fun n : Node => [⟨s, true, false, nodes n⟩] :=
  .option .typeArguments (fun ts => .node rfl (by simp)) <| .merge <| .result rfl (by simp)

/-- What is read of a dotted name is made into the name of a type. -/
theorem typeName : Reads i (typeName sub) := by
  unfold Grammar.typeName
  refine .of_run fun s => .here fun start => .read (.sepBy1 (.wordAs rfl) ?_) fun parts => ?_
  · exact .of_run fun s => .look fun _ => .look fun _ => .only .sign rfl rfl
  dsimp only
  rcases parts with _ | ⟨first, _ | ⟨m, rest⟩⟩
  · exact fun _ _ _ _ _ h => by cases h
  · exact .pureBind (namedTypeEnd start s first)
  · have hsplit := dropLast_append_getLast? (m :: rest)
    refine .closeOther rfl ?_ (fun hw n hn => ?_) fun n _ => namedTypeEnd start s n
    · have hspans := congrArg (List.map Node.span) hsplit
      rw [List.map_append] at hspans
      simpa [Function.comp_def] using hspans
    · have hw : ∀ n ∈ first :: m :: rest, Whole i n := by simpa using hw
      rw [List.cons_append, List.mem_cons, List.mem_append, List.mem_map] at hn
      rcases hn with rfl | ⟨p, hp, rfl⟩ | hn
      · have := hw first (by simp)
        exact whole_leaf rfl this.nonempty this.within
      · have := hw p (List.mem_cons_of_mem _ ((List.dropLast_sublist _).subset hp))
        exact whole_leaf rfl this.nonempty this.within
      · exact hw n (List.mem_cons_of_mem _ (hsplit ▸ List.mem_append_right _ hn))

theorem templateTypePart : Takes i .tight .tight true (templateTypePart sub) := by
  unfold Grammar.templateTypePart
  refine .orElse ?_ .templateText
  exact .of_run fun s => .here fun start => .read (.symbol (by decide)) fun _ => .read .type fun t =>
    .read (.symbolRaw (by decide)) fun _ => .node rfl (by simp)

theorem templateType : Reads i (templateType sub) := by
  unfold Grammar.templateType
  exact .of_run fun s => .here fun start => .read (.symbolRawOf (by decide) (by decide)) fun _ =>
    .read (.manyOf .templateTypePart) fun parts => .look fun _ =>
    .read (.symbolOf (by decide) (by decide)) fun _ => .node rfl (by simp)

theorem tupleMember : Reads i (tupleMember sub) := by
  unfold Grammar.tupleMember
  refine .orElse ?_ (.orElse ?_ ?_)
  · refine .of_run fun s => .here fun start => .read (.test (.symbol (by decide))) fun rest =>
      .here fun inner => .read (.nameAs rfl) fun n => .ite (fun hr => ?_) fun hr => ?_
    · refine .close rfl (by simp) fun n' _ => .ite (fun _ => ?_) fun h => absurd hr h
      exact .pureBind <| .merge <| .read .typeMark fun t => .node rfl (by simp)
    · refine .pureBind <| .ite (fun h => absurd h hr) fun _ => ?_
      exact .merge <| .read (.test .sign) fun o => .read .typeMark fun t =>
        .node (by cases o <;> rfl) (by simp)
  · exact .of_run fun s => .here fun start => .read (.symbol (by decide)) fun _ => .read .type fun t =>
      .node rfl (by simp)
  · exact .of_run fun s => .here fun start => .read .type fun t => .test .sign
      (fun _ => .node rfl (by simp)) (.merge <| .result rfl (by simp))

theorem tupleType : Reads i (tupleType sub) := by
  unfold Grammar.tupleType
  exact .of_run fun s => .here fun start => .read .sign fun _ => .read (.sepBy .tupleMember (.weaken .sign))
    fun ts => .read (.test .sign) fun _ => .read .sign fun _ => .node rfl (by simp)

theorem mappedClause : Reads i (mappedClause sub) := by
  unfold Grammar.mappedClause
  refine .of_run fun s => .read (.nameAs rfl) fun n => .read .keyword fun _ => .read .type fun t =>
    .read (.option ?_) fun renamed => .result rfl (by simp)
  exact .of_run fun s => .read .keyword fun _ => .only .type rfl rfl

theorem indexSignature : Reads i (indexSignature sub) := by
  unfold Grammar.indexSignature
  refine .of_run fun s => .here fun start => .read (.test (.orElse .sign .sign)) fun _ =>
    .read (.test .keyword) fun _ => .look fun _ => .read .sign fun _ =>
    .part (.orElse ?_ .mappedClause) fun inside => .read .sign fun _ =>
    .read (.test (.orElse (.symbol (by decide)) (.orElse (.symbol (by decide))
      (.symbol (by decide))))) fun _ => .read .typeMark fun t => .node rfl (by simp)
  refine .of_run fun s => .read (.nameAs rfl) fun n => .part ?_ fun t => .result rfl (by simp)
  exact .of_run fun s => .read .sign fun _ => .only .type rfl rfl

theorem typeMember : Reads i (typeMember sub) := by
  unfold Grammar.typeMember
  refine .orElse .indexSignature (.orElse ?_ (.orElse ?_ ?_))
  · exact .of_run fun s => .here fun start => .read (.test .keyword) fun _ => .read .keyword fun _ =>
      .read (.option .typeParameters) fun ts => .read .formalParameters fun ps =>
      .read (.option .typeMark) fun t => .node rfl (by simp)
  · exact .of_run fun s => .here fun start => .read .callSignature fun cs => .node rfl (by simp)
  · refine .of_run fun s => .here fun start => .read .modifiers fun _ => .read (.test .sign) fun _ =>
      .read .propertyName fun n => .read (.test .sign) fun _ => .read (.option .callSignature)
      fun cs => ?_
    cases cs with
    | some cs => exact .node rfl (by simp)
    | none => exact .read (.option .typeMark) fun t => .node rfl (by simp)

theorem memberEnd : MayRead i memberEnd := .orElse (.weaken .sign) .semicolon

theorem objectType : Reads i (objectType sub) := by
  unfold Grammar.objectType
  refine .of_run fun s => .here fun start => .test (.symbol (by decide)) (fun _ => ?_) ?_
  · exact .ite (fun h => by cases h) fun _ => .read (.test (.orElse .sign .sign)) fun _ =>
      .read (.sepBy .typeMember .memberEnd) fun members => .read (.testOf .memberEnd) fun _ =>
      .ite (fun _ => .read (.symbol (by decide)) fun _ => .node rfl (by simp)) fun h => absurd rfl h
  · exact .ite (fun _ => .read .sign fun _ => .read (.test (.orElse .sign .sign)) fun _ =>
      .read (.sepBy .typeMember .memberEnd) fun members => .read (.testOf .memberEnd) fun _ =>
      .ite (fun h => by cases h) fun _ => .read .sign fun _ => .node rfl (by simp)) fun h => absurd rfl h

theorem wordType {w : Text} : Reads i (wordType sub w) := by
  unfold Grammar.wordType
  refine .of_run fun s => .here fun start => .ite (fun _ => .merge <| .only .typeQuery rfl rfl)
    fun _ => .ite (fun _ => ?_) fun _ => .ite (fun _ => ?_) fun _ => .ite (fun _ => ?_) fun _ =>
    .ite (fun _ => .merge <| .only .constructorType rfl rfl) fun _ => .ite (fun _ => ?_) fun _ => .fail
  · exact .read .word fun _ => .read .type fun t => .node rfl (by simp)
  · refine .read .word fun _ => .read (.nameAs rfl) fun n => .read (.option ?_) fun bound =>
      .node rfl (by simp)
    exact .of_run fun s => .read .keyword fun _ => .only .type rfl rfl
  · exact .read .word fun _ => .read .keyword fun _ => .node rfl (by simp)
  · exact .read .importCall fun first => .extend allQuerySuffixes rfl fun q =>
      .read (.option .sameLineArguments) fun ts => .node rfl (by simp)

theorem atomicType : Reads i (atomicType sub) := by
  unfold Grammar.atomicType
  refine .of_run fun s => .here fun start => .look fun c =>
    .ite (fun _ => .orElse (.merge <| .only .functionType rfl rfl) ?_) fun _ =>
    .ite (fun _ => .merge <| .only .functionType rfl rfl) fun _ =>
    .ite (fun _ => .merge <| .only .objectType rfl rfl) fun _ =>
    .ite (fun _ => .merge <| .only .tupleType rfl rfl) fun _ =>
    .ite (fun _ => .merge <| .only .templateType rfl rfl) fun _ =>
    .ite (fun _ => .merge <| .only .stringLiteral rfl rfl) fun _ =>
    .ite (fun _ => .merge <| .only .numberLiteral rfl rfl) fun _ =>
    .ite (fun _ => ?_) fun _ => .ite (fun _ => ?_) fun _ => .ite (fun _ => ?_) fun _ => .look fun w =>
    .merge <| .only (.orElse .wordType .typeName) rfl rfl
  · exact .read .sign fun _ => .read .type fun t => .read .sign fun _ => .node rfl (by simp)
  · exact .read (.test (.orElse .sign .sign)) fun _ => .read .numberLiteral fun n => .node rfl (by simp)
  · exact .read .sign fun _ => .read .type fun t => .node rfl (by simp)
  · exact .read .sign fun _ => .node rfl (by simp)

theorem typeSuffixes {start : Nat} : ∀ {n : Nat} {left : Node},
    Extends i start left (Grammar.typeSuffixes sub start n left)
  | 0, left => .done rfl rfl rfl rfl
  | n + 1, left => by
    unfold Grammar.typeSuffixes
    refine .look fun _ => .look fun _ => .ite (fun _ => ?_) fun _ => .done rfl rfl rfl rfl
    refine .read (.option ?_) fun t => ?_
    · exact .of_run fun s => .read .sign fun _ => .read (.option .type) fun t => .read .sign fun _ =>
        .result rfl (by simp)
    · cases t with
      | some t => exact .close rfl (by simp) fun m _ => typeSuffixes
      | none => exact .done rfl rfl rfl (by simp)

theorem allTypeSuffixes {start : Nat} {left : Node} : Extends i start left
    (fun i => Grammar.typeSuffixes sub start (i.chars.size + 1) left i) :=
  typeSuffixes (n := i.chars.size + 1)

theorem operandType : Reads i (operandType sub) := by
  unfold Grammar.operandType
  exact .of_run fun s => .here fun start => .read .atomicType fun first =>
    .last <| .extend allTypeSuffixes rfl fun n => .merge <| .result rfl (by simp)

omit [SubReads i sub] in
theorem single {a : Char} : Reads i (single a) := by
  unfold Grammar.single
  exact .of_run fun s => .look fun _ => .look fun _ => .only .sign rfl rfl

omit [SubReads i sub] in
theorem joinedType {p : Parser Node} {a : Char} (hp : Reads i p) : Reads i (joinedType p a) := by
  unfold Grammar.joinedType
  refine .of_run fun s => .here fun start => .read (.test .single) fun lead => .read hp fun first =>
    .read (.many ?_) fun rest => .ite (fun h => ?_) fun _ => .node rfl (by simp)
  · exact .of_run fun s => .read .single fun _ => .only hp rfl rfl
  · rw [Bool.and_eq_true, List.isEmpty_iff] at h
    exact .merge <| .result rfl (by simp [h.1])

theorem typeExpression : Reads i (typeExpression sub) := by
  unfold Grammar.typeExpression
  refine .of_run fun s => .here fun start => .read (.joinedType (.joinedType .operandType)) fun left =>
    .read (.option ?_) fun cs => ?_
  · exact .of_run fun s => .read .keyword fun _ =>
      .read (.joinedType (.joinedType .operandType)) fun right => .read .sign fun _ =>
      .read .type fun yes => .read .sign fun _ => .read .type fun no => .result rfl (by simp)
  · cases cs with
    | some cs => exact .node rfl (by simp)
    | none => exact .merge <| .result rfl (by simp)

end Takes

end KeyTrace.Grammar
