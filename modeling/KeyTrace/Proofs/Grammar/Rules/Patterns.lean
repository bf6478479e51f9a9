/-
The rules for the targets of declarations, parameters and assignments.
-/
import KeyTrace.Grammar.Patterns
import KeyTrace.Proofs.Grammar.Rules.Signatures

namespace KeyTrace.Grammar.Takes

open KeyTrace.Grammar.Parser

variable {i : Input} {sub : Sub} [SubReads i sub]

theorem withDefault {kind : Kind} (hk : ∀ ch, isFree kind ch = true) {start : Nat} {p : Node} :
    Extends i start p (withDefault sub kind start p) := by
  unfold Grammar.withDefault
  refine .option .initializer (fun v => ?_) (.done rfl rfl rfl rfl)
  exact .last <| .close (by simp [hk]) (by simp) fun n _ => .done rfl rfl rfl rfl

theorem patternProperty {members : Bool} : Reads i (patternProperty sub members) := by
  unfold Grammar.patternProperty
  refine .orElse ?_ (.orElse ?_ ?_)
  · exact .of_run fun s => .here fun start => .read (.symbol (by decide)) fun _ => .read .pattern
      fun p => .node rfl (by simp)
  · exact .of_run fun s => .here fun start => .read .propertyName fun k => .read .sign fun _ =>
      .here fun inner => .read .pattern fun p => .extend (withDefault fun _ => rfl) rfl fun v => .merge <|
      .node rfl (by simp)
  · have hend {p : Node} {c : CodePoint} {start s : Nat} :
        Run i .settled [.whole start p, .fresh s] (do
          let w ← Grammar.withDefault sub .objectAssignmentPattern start p
          Parser.guard (c != 123 && c != 91 || w.kind == .objectAssignmentPattern)
          return w) .settled fun n : Node => [⟨s, true, false, nodes n⟩] :=
      .extend (withDefault fun _ => rfl) rfl fun w => .look fun _ => .merge <| .result rfl (by simp)
    exact .of_run fun s => .here fun start => .look fun c =>
      .ite (fun _ => .read .pattern fun p => hend) fun _ => .read (.nameAs rfl) fun p => hend

theorem objectPattern {members : Bool} : Reads i (objectPattern sub members) := by
  unfold Grammar.objectPattern
  exact .of_run fun s => .here fun start => .read .sign fun _ =>
    .read (.elements .patternProperty) fun ps => .read .sign fun _ => .node rfl (by simp)

theorem arrayPattern {members : Bool} : Reads i (arrayPattern sub members) := by
  unfold Grammar.arrayPattern
  refine .of_run fun s => .here fun start => .read .sign fun _ => .read (.elements ?_) fun ps =>
    .read .sign fun _ => .node rfl (by simp)
  exact .of_run fun s => .here fun start => .read .pattern fun p =>
    .last <| .extend (withDefault fun _ => rfl) rfl fun n => .merge <| .result rfl (by simp)

theorem destructuring {members : Bool} : Reads i (destructuring sub members) :=
  .orElse .objectPattern .arrayPattern

omit [SubReads i sub] in
theorem nameLeaf : Reads i nameLeaf := by
  unfold Grammar.nameLeaf
  exact .of_run fun s => .here fun start => .read .name fun w => .look fun _ =>
    .node (by split <;> rfl) (by simp)

theorem patternGoal {members : Bool} : Reads i (Grammar.pattern sub members) := by
  unfold Grammar.pattern
  refine .of_run fun s => .here fun start => .look fun c => .ite (fun _ => ?_) fun _ => ?_
  · exact .read (.symbol (by decide)) fun _ => .read .pattern fun p => .node rfl (by simp)
  · have hplain : Reads i (do
        let p ← Grammar.destructuring sub members <|> Grammar.nameLeaf
        let d ← peek 0
        Parser.guard (d != 40 && d != 91 && d != 33 && !(d == 46 && (← peek 1) != 46)
          && !(d == 63 && (← peek 1) == 46))
        return p) :=
      .of_run fun s => .read (.orElse .destructuring .nameLeaf) fun p => .look fun _ =>
        .look fun _ => .look fun _ => .look fun _ => .result rfl (by simp)
    exact .option hplain (fun p => .merge <| .result rfl (by simp)) <|
      .merge <| .look fun _ => .read .operation fun e => .look fun _ => .result rfl (by simp)

theorem bindingTarget : Reads i (bindingTarget sub) := .orElse .destructuring (.nameAs rfl)

end KeyTrace.Grammar.Takes
