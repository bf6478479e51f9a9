/-
Chains of scopes.

Scopes are numbered in the order in which they are made, and each has an earlier
scope, or none, around it. `declare` binds a name in one scope, overwriting what
the scope had; `resolve` looks from a scope outwards and takes the first binding.
-/
import KeyTrace.Text.Named

namespace KeyTrace

/-- A scope among others, by number. -/
abbrev ScopeId := Nat

/-- One scope: what is around it, whether `var` stops at it, and what it binds. -/
structure Scope (β : Type) where
  parent : Option ScopeId
  isFunction : Bool
  bindings : Named β

namespace Scope

variable {β : Type}

/-- What the scope itself binds a name to. -/
def get? (s : Scope β) (name : Text) : Option β := Named.get? s.bindings name

/-- The scope with a name bound. -/
def declare (s : Scope β) (name : Text) (b : β) : Scope β :=
  { s with bindings := Named.set name b s.bindings }

/-- Declaring a name changes what the scope binds that name to, and nothing else. -/
theorem get?_declare (s : Scope β) (name n : Text) (b : β) :
    (s.declare name b).get? n = if n = name then some b else s.get? n :=
  Named.get?_set s.bindings name n b

end Scope

/-- Scopes, each at its number. -/
structure Scopes (β : Type) where
  entries : Array (Scope β)

namespace Scopes

variable {β : Type}

def empty : Scopes β := ⟨#[]⟩

/-- The number of the next scope. -/
def size (s : Scopes β) : Nat := s.entries.size

def get? (s : Scopes β) (i : ScopeId) : Option (Scope β) := s.entries[i]?

/-- Makes a scope. One without a parent is a function's, whatever is asked for. -/
def push (s : Scopes β) (parent : Option ScopeId) (isFunction : Bool) : Scopes β :=
  ⟨s.entries.push ⟨parent, isFunction || parent.isNone, []⟩⟩

/-- Binds a name in a scope. -/
def declare (s : Scopes β) (i : ScopeId) (name : Text) (b : β) : Scopes β :=
  ⟨s.entries.modify i fun e => e.declare name b⟩

/-- The scopes from a scope outwards, at most `n` of them. A parent is an earlier scope. -/
def chainFrom (s : Scopes β) : (n : Nat) → ScopeId → List (ScopeId × Scope β)
  | 0, _ => []
  | n + 1, i =>
    match s.get? i with
    | none => []
    | some e =>
      (i, e) :: match e.parent with
        | none => []
        | some p => if p < i then chainFrom s n p else []

/-- The scopes from a scope outwards, itself first. -/
def chain (s : Scopes β) (i : ScopeId) : List (ScopeId × Scope β) := s.chainFrom (i + 1) i

/-- What a name means in a scope: the binding of the nearest scope that has one. -/
def resolve (s : Scopes β) (i : ScopeId) (name : Text) : Option β :=
  (s.chain i).findSome? fun e => e.2.get? name

/-- The scope of the function around a scope, or the outermost scope. -/
def functionScope (s : Scopes β) (i : ScopeId) : ScopeId :=
  (((s.chain i).find? fun e => e.2.isFunction).map (·.1)).getD i

end Scopes
end KeyTrace
