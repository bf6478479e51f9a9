/-
The rules for names, and for what a rule may ask of another.
-/
import KeyTrace.Proofs.Grammar.Tokens

namespace KeyTrace.Grammar

open KeyTrace.Grammar.Parser

/-- The parser of goals reads what it is asked for. An element of JSX leaves the cursor right behind
itself. -/
class SubReads (i : Input) (sub : Sub) : Prop where
  goal : ∀ g, g ≠ .jsxElement → Reads i (sub g)
  element : ∀ st, Takes i st .tight true (sub .jsxElement)

namespace Takes

variable {i : Input} {st : Stance} {sub : Sub}

/-! ## Names -/

theorem name : Takes i st .settled true name := by
  unfold Grammar.name
  exact .of_run fun s => .read .word fun w => .look fun _ => .look fun _ => .result rfl (by simp)

theorem nameAs {kind : Kind} (hk : isFree kind [] = true) :
    Takes i st .settled true (nameAs kind) := by
  unfold Grammar.nameAs
  exact .of_run fun s => .here fun start => .read .name fun _ => .node (by simp [hk]) (by simp)

theorem wordAs {kind : Kind} (hk : isFree kind [] = true) :
    Takes i st .settled true (wordAs kind) := by
  unfold Grammar.wordAs
  exact .of_run fun s => .here fun start => .read .word fun _ => .node (by simp [hk]) (by simp)

theorem keywordAs {t : Text} {kind : Kind} (hk : isFree kind [] = true) :
    Takes i st .settled true (keywordAs t kind) := by
  unfold Grammar.keywordAs
  exact .of_run fun s => .here fun start => .read .keyword fun _ => .node (by simp [hk]) (by simp)

theorem privateName : Takes i st .settled true privateName := by
  unfold Grammar.privateName
  exact .of_run fun s => .here fun start => .read (.symbolRaw (by decide)) fun _ => .read .word
    fun _ => .node rfl (by simp)

/-- The name of a member. -/
theorem memberName : Reads i (Grammar.privateName <|> Grammar.wordAs .propertyIdentifier) :=
  .orElse .privateName (.wordAs rfl)

theorem wordAs_yields {kind : Kind} : Yields (fun n : Node => n.kind = kind) (Grammar.wordAs kind) :=
  .skip fun _ => .skip fun _ => .node fun _ => rfl

theorem memberName_yields : Yields (fun n : Node => n.kind.isName = true)
    (Grammar.privateName <|> Grammar.wordAs .propertyIdentifier) :=
  .orElse (.skip fun _ => .skip fun _ => .skip fun _ => .node fun _ => rfl)
    (.skip fun _ => .skip fun _ => .node fun _ => rfl)

/-- The names behind the first of a dotted name. -/
theorem dottedNames : MayRead i (Parser.many (do Parser.sign '.'; Grammar.wordAs .propertyIdentifier)) :=
  .many <| .of_run fun _ => .read .sign fun _ => .only (.wordAs rfl) rfl rfl

theorem dottedNames_yields : Yields (fun l : List Node => ∀ n ∈ l, n.kind.isName = true)
    (Parser.many (do Parser.sign '.'; Grammar.wordAs .propertyIdentifier)) :=
  .many <| .skip fun _ => .skip fun _ => .skip fun _ => .node fun _ => rfl

theorem oneOf {ts : List Text} : Takes i st .settled true (oneOf ts) := by
  unfold Grammar.oneOf
  exact .of_run fun s => .read .word fun w => .look fun _ => .result rfl (by simp)

/-! ## Goals -/

section Goals

variable [SubReads i sub]

theorem operation {ctx : Context} {level : Level} {assertions : Bool} :
    Reads i (sub (.operation ctx level assertions)) := SubReads.goal _ nofun

theorem expressionIn {ctx : Context} : Reads i (sub.expressionIn ctx) := .operation

theorem expression : Reads i sub.expression := .operation

theorem type : Reads i (sub .type) := SubReads.goal _ nofun

theorem pattern {members : Bool} : Reads i (sub (.pattern members)) := SubReads.goal _ nofun

theorem block {inExpression : Bool} : Reads i (sub (.block inExpression)) := SubReads.goal _ nofun

theorem statement : Reads i (sub .statement) := SubReads.goal _ nofun

theorem jsxElement : Takes i st .tight true (sub .jsxElement) := SubReads.element _

theorem expressions {ctx : Context} : Reads i (expressions sub ctx) := by
  unfold Grammar.expressions
  refine .of_run fun s => .here fun start => .read .expressionIn fun first =>
    .read (.many ?_) fun rest => .ite (fun h => ?_) fun h => ?_
  · exact .of_run fun s => .read .sign fun _ => .only .expressionIn rfl rfl
  · rw [List.isEmpty_iff] at h
    exact .merge <| .result rfl (by simp [h])
  · exact .node rfl (by simp)

end Goals

theorem elements {p : Parser Node} (hp : Reads i p) : MayRead i (elements p) := by
  unfold Grammar.elements
  refine .of_run fun s => .read (.option hp) fun first => .read (.many ?_) fun rest =>
    .result rfl ?_
  · exact .of_run fun s => .read .sign fun _ => .only (.option hp) rfl rfl
  · cases first <;> simp

end Takes

end KeyTrace.Grammar
