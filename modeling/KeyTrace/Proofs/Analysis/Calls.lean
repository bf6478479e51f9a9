/-
What one call looks up.

A fallback has a say in nothing but the namespace: the keys are those of the first
argument, and there are none at all if the variable has no namespace of its own and
the fallback does not list it.
-/
import KeyTrace.Analysis.Usages
import KeyTrace.Proofs.Analysis.Outcomes

namespace KeyTrace.Usage

open Accessor (Workplace)

variable {w : Workplace} {delimiter : Text}

/-- The usages of one call with a namespace or another. -/
def atCall (w : Workplace) (delimiter : Text) (first : Node) (name : Text) (ns : Option Text)
    (keys : List Text) : List Usage :=
  keys.map fun key => {
    key := qualify delimiter ns key
    start := w.source.charOffset first.span.start
    stop := w.source.charOffset first.span.stop
    quoted := first.shape == .string || first.shape == .template
    variableName := name
    ns := ns }

/-- What a call looks up through a variable with a namespace or without one. -/
def through (w : Workplace) (delimiter : Text) (call : Place) (name : Text) (ns : Option Text) :
    Traced (List Usage) :=
  match call.node.callArguments?.getD [] with
  | [] => return []
  | first :: _ => do
    return atCall w delimiter first name ns (← localKeys w (w.scopes.scopeFor call) first)

theorem ofCall_eq (fallback : Fallback) {call : Place} {name : Text}
    (hv : lookupVariable? w.source call.node = some name) :
    ofCall w fallback delimiter call = (do
      let own ← ownNamespace w (w.scopes.scopeFor call) name
      if own.isNone && (Named.get? fallback name).isNone then return []
      else through w delimiter call name (own.or ((Named.get? fallback name).bind id))) := by
  unfold ofCall namespaceOf
  simp only [hv, bind_assoc]
  refine bind_congr fun own => ?_
  cases own with
  | some ns => rfl
  | none =>
    rw [pure_bind]
    cases Named.get? fallback name with
    | none => rfl
    | some v =>
      rw [Option.isNone_some, Bool.and_false, Bool.and_false]
      rfl

/-- What one call comes to: nothing, if it has no argument or its variable no namespace, or else the
keys of its first argument. -/
theorem ofCall_ok_cases {fallback : Fallback} {call : Place} {us : List Usage}
    (h : (ofCall w fallback delimiter call).outcome = .ok us) {name : Text}
    (hv : lookupVariable? w.source call.node = some name) :
    ∃ ns, (namespaceOf w fallback (w.scopes.scopeFor call) name).outcome = .ok ns ∧
      ((call.node.callArguments?.getD [] = [] ∨ ns = none ∧ Named.get? fallback name = none) ∧
          us = [] ∨
        ∃ first rest keys, call.node.callArguments?.getD [] = first :: rest ∧
          (localKeys w (w.scopes.scopeFor call) first).outcome = .ok keys ∧
          us = atCall w delimiter first name ns keys) := by
  unfold ofCall at h
  simp only [hv] at h
  obtain ⟨ns, hns, h⟩ := Traced.bind_ok_iff.1 h
  refine ⟨ns, hns, ?_⟩
  split at h
  · next hnone =>
    cases h
    rw [Bool.and_eq_true, Option.isNone_iff_eq_none, Option.isNone_iff_eq_none] at hnone
    exact .inl ⟨.inr hnone, rfl⟩
  · split at h
    · next hargs =>
      cases h
      exact .inl ⟨.inl hargs, rfl⟩
    · next first rest hargs =>
      obtain ⟨keys, hkeys, h⟩ := Traced.bind_ok_iff.1 h
      exact .inr ⟨first, rest, keys, hargs, hkeys, (Except.ok.inj h).symm⟩

end KeyTrace.Usage
