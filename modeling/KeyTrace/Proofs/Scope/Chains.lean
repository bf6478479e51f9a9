/-
Scopes one operation at a time: what making a scope and declaring a name change,
and the chain of a scope without the bound that its recursion goes down on.
-/
import KeyTrace.Scope.Chain

namespace KeyTrace.Scopes

variable {β : Type}

@[simp] theorem size_push (s : Scopes β) (parent : Option ScopeId) (isFunction : Bool) :
    (s.push parent isFunction).size = s.size + 1 := by
  simp [push, size]

@[simp] theorem size_declare (s : Scopes β) (i : ScopeId) (name : Text) (b : β) :
    (s.declare i name b).size = s.size := by
  simp [declare, size]

theorem get?_push (s : Scopes β) (parent : Option ScopeId) (isFunction : Bool) (j : ScopeId) :
    (s.push parent isFunction).get? j =
      if j = s.size then some ⟨parent, isFunction || parent.isNone, []⟩ else s.get? j :=
  Array.getElem?_push

theorem get?_declare (s : Scopes β) (i : ScopeId) (name : Text) (b : β) (j : ScopeId) :
    (s.declare i name b).get? j =
      if j = i then (s.get? j).map fun e => e.declare name b else s.get? j := by
  simp only [declare, get?, Array.getElem?_modify]
  by_cases h : i = j
  · simp [h]
  · have h' : ¬ j = i := fun hj => h hj.symm
    simp [h, h']

/-- Whatever the bound, the chain is the same, for each parent is an earlier scope. -/
theorem chainFrom_eq_chain (s : Scopes β) : ∀ {n i : Nat}, i < n → s.chainFrom n i = s.chain i := by
  intro n
  induction n using Nat.strongRecOn with
  | ind n ih =>
  intro i hi
  obtain ⟨m, rfl⟩ : ∃ m, n = m + 1 := ⟨n - 1, by omega⟩
  simp only [chain, chainFrom]
  cases s.get? i with
  | none => rfl
  | some e =>
    obtain ⟨parent, _, _⟩ := e
    cases parent with
    | none => rfl
    | some p =>
      dsimp only
      split
      · next hlt =>
        by_cases him : i = m
        · rw [him]
        · have hpm : p < m := Nat.lt_of_lt_of_le hlt (by omega)
          rw [ih m (by omega) hpm, ih i (by omega) hlt]
      · rfl

/-- The chain of a scope is the scope itself and the chain of its parent. -/
theorem chain_of_get? {s : Scopes β} {i : Nat} {e : Scope β} (h : s.get? i = some e) :
    s.chain i = (i, e) :: match e.parent with
      | none => []
      | some p => if p < i then s.chain p else [] := by
  have hs : s.chain i = s.chainFrom (i + 1) i := rfl
  simp only [hs, chainFrom, h]
  obtain ⟨parent, _, _⟩ := e
  cases parent with
  | none => rfl
  | some p =>
    dsimp only
    split
    · next hlt => rw [chainFrom_eq_chain s hlt]
    · rfl

theorem get?_of_mem_chainFrom {s : Scopes β} {e : ScopeId × Scope β} : ∀ {n i : Nat},
    e ∈ s.chainFrom n i → s.get? e.1 = some e.2
  | n + 1, i, h => by
    simp only [chainFrom] at h
    split at h
    · simp at h
    · next f hf =>
      rcases List.mem_cons.1 h with rfl | h
      · exact hf
      · split at h
        · simp at h
        · split at h
          · exact get?_of_mem_chainFrom h
          · simp at h

/-- The chain of a scope holds scopes. -/
theorem get?_of_mem_chain {s : Scopes β} {e : ScopeId × Scope β} {i : ScopeId}
    (h : e ∈ s.chain i) : s.get? e.1 = some e.2 :=
  get?_of_mem_chainFrom h

end KeyTrace.Scopes
