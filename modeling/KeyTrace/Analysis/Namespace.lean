/-
The namespace that a call of a translation accessor is bound to.
-/
import KeyTrace.Fold.Constant

namespace KeyTrace

/-- A namespace, or a placeholder that names the place where none could be found. -/
inductive Namespace where
  | static (name : Text)
  | dynamic (placeholder : Text)
deriving DecidableEq, Repr

namespace Namespace

def static? : Namespace → Option Text
  | static n => some n
  | dynamic _ => none

/-- A placeholder for a place in a file. -/
def placeholder (reason label : Text) (line : Nat) : Text :=
  [60] ++ reason ++ [58] ++ label ++ text ":L" ++ decimal line ++ [62]

/-- The namespace of a call. A template that cannot be folded as a whole is joined from
substitutions that start at depth zero each. -/
def resolve (ctx : Fold.Context) (label : Text) (line : Nat) (call : Node) :
    Traced Namespace := do
  match call.callArguments?.getD [] with
  | [] => return .dynamic (placeholder (text "no-namespace") label line)
  | first :: _ =>
    let unknown := Namespace.dynamic (placeholder (text "dynamic") label line)
    match ← Fold.constant ctx 0 (some first) with
    | .string s => return .static s
    | _ =>
      if first.shape = .template then
        match ← Fold.foldTemplate ctx.source (Fold.constant ctx 0) first with
        | some s => return .static s
        | none => return unknown
      else return unknown

end Namespace
end KeyTrace
