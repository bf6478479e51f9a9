/-
Chains of scopes in any session.

A session makes scopes, declares names and looks names up, in any order; a parent is
a scope made before, so that going outwards ends. What a session has declared and
which scope lies in which are read off the session itself, step by step. The scopes
after it hold just that, and so a name means what the nearest scope outwards has
declared last, and a declaration changes nothing but what is seen from inside.
-/
import KeyTrace.Proofs.Scope.Chains
import Mathlib.Logic.Relation

namespace KeyTrace.Scopes

/-- A session that has made `n` scopes, the last step first. -/
inductive Session (β : Type) : (n : Nat) → Type
  | start : Session β 0
  /-- Makes a scope inside one made before, or one that is not inside any. -/
  | make {n : Nat} (before : Session β n) (parent : Option (Fin n)) (isFunction : Bool) :
      Session β (n + 1)
  | declare {n : Nat} (before : Session β n) (i : Fin n) (name : Text) (b : β) : Session β n
  | resolve {n : Nat} (before : Session β n) (i : Fin n) (name : Text) : Session β n

namespace Session

variable {β : Type} {n : Nat}

/-- The scopes after a session. -/
def scopes : {n : Nat} → Session β n → Scopes β
  | _, start => empty
  | _, make s parent isFunction => s.scopes.push (parent.map Fin.val) isFunction
  | _, declare s i name b => s.scopes.declare i name b
  | _, resolve s _ _ => s.scopes

/-- The scope that a scope was made in. -/
def parent? : {n : Nat} → Session β n → ScopeId → Option ScopeId
  | _, start, _ => none
  | _, @make _ n s parent _, i => if i = n then parent.map Fin.val else s.parent? i
  | _, declare s _ _ _, i => s.parent? i
  | _, resolve s _ _, i => s.parent? i

/-- The scope was made as that of a function. -/
def isFunction : {n : Nat} → Session β n → ScopeId → Bool
  | _, start, _ => false
  | _, @make _ n s _ isFunction, i => if i = n then isFunction else s.isFunction i
  | _, declare s _ _ _, i => s.isFunction i
  | _, resolve s _ _, i => s.isFunction i

/-- The most recent declaration of a name in a scope. -/
def declared? : {n : Nat} → Session β n → ScopeId → Text → Option β
  | _, start, _, _ => none
  | _, make s _ _, j, x => s.declared? j x
  | _, declare s i name b, j, x => if j = i ∧ x = name then some b else s.declared? j x
  | _, resolve s _ _, j, x => s.declared? j x

/-- The first scope is the second one or lies inside it. -/
def Inside (s : Session β n) : ScopeId → ScopeId → Prop :=
  Relation.ReflTransGen fun i p => s.parent? i = some p

/-- From the first scope outwards, the second one is the first that has a property. -/
structure Nearest (s : Session β n) (P : ScopeId → Prop) (i j : ScopeId) : Prop where
  inside : s.Inside i j
  holds : P j
  before : ∀ k, s.Inside i k → s.Inside k j → k ≠ j → ¬ P k

section Forest

variable {s : Session β n} {P : ScopeId → Prop} {i j p : ScopeId}

theorem parent?_lt (s : Session β n) (h : s.parent? i = some p) : p < i ∧ i < n := by
  induction s with
  | start => cases h
  | @make n s parent isFunction ih =>
    rw [parent?] at h
    split at h
    · next hi =>
      obtain ⟨q, -, rfl⟩ := Option.map_eq_some_iff.1 h
      subst hi
      exact ⟨q.isLt, Nat.lt_succ_self _⟩
    · exact ⟨(ih h).1, Nat.lt_succ_of_lt (ih h).2⟩
  | declare s _ _ _ ih => exact ih h
  | resolve s _ _ ih => exact ih h

theorem Inside.le (h : s.Inside i j) : j ≤ i := by
  induction h with
  | refl => exact Nat.le_refl i
  | tail _ hp ih => exact Nat.le_trans (Nat.le_of_lt (s.parent?_lt hp).1) ih

theorem Inside.parent (h : s.Inside i j) (hne : i ≠ j) : ∃ p, s.parent? i = some p ∧ s.Inside p j := by
  rcases h.cases_head with rfl | ⟨p, hp, h⟩
  · exact absurd rfl hne
  · exact ⟨p, hp, h⟩

theorem Nearest.here (h : P i) : s.Nearest P i i where
  inside := .refl
  holds := h
  before _ hk hki hne := absurd (Nat.le_antisymm hk.le hki.le) hne

theorem Nearest.up (hi : ¬ P i) (hp : s.parent? i = some p) (h : s.Nearest P p j) :
    s.Nearest P i j where
  inside := .head hp h.inside
  holds := h.holds
  before k hk hkj hne := by
    by_cases hik : i = k
    · exact hik ▸ hi
    · obtain ⟨q, hq, hk⟩ := hk.parent hik
      cases hp.symm.trans hq
      exact h.before k hk hkj hne

theorem nearest_iff : s.Nearest P i j ↔
    P i ∧ j = i ∨ ¬ P i ∧ ∃ p, s.parent? i = some p ∧ s.Nearest P p j := by
  constructor
  · intro h
    by_cases hij : i = j
    · subst hij
      exact .inl ⟨h.holds, rfl⟩
    · obtain ⟨p, hp, hpj⟩ := h.inside.parent hij
      refine .inr ⟨h.before i .refl h.inside hij, p, hp, hpj, h.holds, fun k hk => ?_⟩
      exact h.before k (.head hp hk)
  · rintro (⟨h, rfl⟩ | ⟨hi, p, hp, h⟩)
    · exact .here h
    · exact h.up hi hp

theorem exists_nearest (h : s.Inside i j) (hj : P j) : ∃ k, s.Nearest P i k := by
  induction h using Relation.ReflTransGen.head_induction_on with
  | refl => exact ⟨j, .here hj⟩
  | @head i p hp _ ih =>
    obtain ⟨k, hk⟩ := ih
    by_cases hi : P i
    · exact ⟨i, .here hi⟩
    · exact ⟨k, hk.up hi hp⟩

theorem exists_outermost (s : Session β n) (i : ScopeId) : ∃ j, s.Inside i j ∧ s.parent? j = none := by
  induction i using Nat.strongRecOn with
  | ind i ih =>
  cases hp : s.parent? i with
  | none => exact ⟨i, .refl, hp⟩
  | some p =>
    obtain ⟨j, hj, hnone⟩ := ih p (s.parent?_lt hp).1
    exact ⟨j, .head hp hj, hnone⟩

end Forest

section Account

variable {i : ScopeId}

/-- A scope after a session is what the session has made of it. -/
structure IsScope (s : Session β n) (i : ScopeId) (e : Scope β) : Prop where
  parent : e.parent = s.parent? i
  isFunction : e.isFunction = (s.isFunction i || (s.parent? i).isNone)
  bindings : ∀ x, e.get? x = s.declared? i x

theorem declared?_of_le {s : Session β n} (hi : n ≤ i) (x : Text) : s.declared? i x = none := by
  induction s with
  | start => rfl
  | make s _ _ ih => exact ih (Nat.le_of_succ_le hi)
  | declare s j _ _ ih =>
    rw [declared?, if_neg, ih hi]
    rintro ⟨rfl, -⟩
    exact absurd j.isLt (Nat.not_lt.2 hi)
  | resolve s _ _ ih => exact ih hi

@[simp] theorem size_scopes (s : Session β n) : s.scopes.size = n := by
  induction s with
  | start => rfl
  | make s _ _ ih => rw [scopes, size_push, ih]
  | declare s _ _ _ ih => rw [scopes, size_declare, ih]
  | resolve s _ _ ih => exact ih

theorem exists_isScope (s : Session β n) (hi : i < n) :
    ∃ e, s.scopes.get? i = some e ∧ s.IsScope i e := by
  induction s with
  | start => cases hi
  | @make n s parent isFunction ih =>
    rw [scopes, get?_push, size_scopes]
    by_cases hin : i = n
    · subst hin
      refine ⟨_, if_pos rfl, ⟨?_, ?_, fun x => ?_⟩⟩
      · rw [parent?, if_pos rfl]
      · rw [Session.isFunction, parent?, if_pos rfl, if_pos rfl]
      · rw [declared?, declared?_of_le (Nat.le_refl i)]
        rfl
    · obtain ⟨e, he, hs⟩ := ih (Nat.lt_of_le_of_ne (Nat.le_of_lt_succ hi) hin)
      refine ⟨e, (if_neg hin).trans he, ⟨?_, ?_, hs.bindings⟩⟩
      · rw [parent?, if_neg hin, hs.parent]
      · rw [Session.isFunction, parent?, if_neg hin, if_neg hin, hs.isFunction]
  | declare s j name b ih =>
    obtain ⟨e, he, hs⟩ := ih hi
    rw [scopes, get?_declare, he]
    by_cases hij : i = j
    · refine ⟨e.declare name b, if_pos hij, ⟨hs.parent, hs.isFunction, fun x => ?_⟩⟩
      rw [Scope.get?_declare, declared?, hs.bindings]
      simp [hij]
    · refine ⟨e, if_neg hij, ⟨hs.parent, hs.isFunction, fun x => ?_⟩⟩
      rw [declared?, if_neg fun h => hij h.1, hs.bindings]
  | resolve s _ _ ih =>
    obtain ⟨e, he, hs⟩ := ih hi
    exact ⟨e, he, ⟨hs.parent, hs.isFunction, hs.bindings⟩⟩

theorem chain_scopes (s : Session β n) (hi : i < n) : ∃ e, s.IsScope i e ∧
    s.scopes.chain i = (i, e) :: ((s.parent? i).map s.scopes.chain).getD [] := by
  obtain ⟨e, he, hs⟩ := s.exists_isScope hi
  refine ⟨e, hs, ?_⟩
  rw [chain_of_get? he, hs.parent]
  cases hp : s.parent? i with
  | none => rfl
  | some p => simp [(s.parent?_lt hp).1]

/-- What is found along the chain of a scope is found in the nearest scope where there is something. -/
theorem findSome?_chain {γ : Type} (s : Session β n) {f : ScopeId × Scope β → Option γ}
    {g : ScopeId → Option γ} (hfg : ∀ j e, s.IsScope j e → f (j, e) = g j) (hi : i < n) (c : γ) :
    (s.scopes.chain i).findSome? f = some c ↔
      ∃ j, s.Nearest (fun k => (g k).isSome) i j ∧ g j = some c := by
  induction i using Nat.strongRecOn with
  | ind i ih =>
  -- A chain is a scope and the chain of its parent, which has been made before it.
  obtain ⟨e, hs, hc⟩ := s.chain_scopes hi
  rw [hc, List.findSome?_cons, hfg i e hs]
  cases hg : g i with
  | some b =>
    refine ⟨fun h => ⟨i, .here (by simp [hg]), hg.trans h⟩, ?_⟩
    rintro ⟨j, hj, hgj⟩
    rcases nearest_iff.1 hj with ⟨-, rfl⟩ | ⟨hnot, -⟩
    · exact hg.symm.trans hgj
    · exact absurd (by simp [hg]) hnot
  | none =>
    have hnot : ¬ (g i).isSome = true := by simp [hg]
    cases hp : s.parent? i with
    | none =>
      refine ⟨nofun, ?_⟩
      rintro ⟨j, hj, -⟩
      rcases nearest_iff.1 hj with ⟨h, -⟩ | ⟨-, p, hp', -⟩
      · exact absurd h hnot
      · cases hp.symm.trans hp'
    | some p =>
      obtain ⟨hpi, -⟩ := s.parent?_lt hp
      refine (ih p hpi (Nat.lt_trans hpi hi)).trans ⟨?_, ?_⟩
      · rintro ⟨j, hj, hgj⟩
        exact ⟨j, hj.up hnot hp, hgj⟩
      · rintro ⟨j, hj, hgj⟩
        rcases nearest_iff.1 hj with ⟨h, -⟩ | ⟨-, q, hq, hqj⟩
        · exact absurd h hnot
        · cases hp.symm.trans hq
          exact ⟨j, hqj, hgj⟩

/-- A name means what the nearest scope that declares it has declared last. -/
theorem resolve_eq_some_iff (s : Session β n) (hi : i < n) (x : Text) (b : β) :
    s.scopes.resolve i x = some b ↔
      ∃ j, s.Nearest (fun k => (s.declared? k x).isSome) i j ∧ s.declared? j x = some b :=
  s.findSome?_chain (fun _ _ hs => hs.bindings x) hi b

theorem resolve_eq_none_iff (s : Session β n) (hi : i < n) (x : Text) :
    s.scopes.resolve i x = none ↔ ∀ j, s.Inside i j → s.declared? j x = none := by
  constructor
  · intro h j hj
    refine Option.not_isSome_iff_eq_none.1 fun hsome => ?_
    obtain ⟨k, hk⟩ := exists_nearest (P := fun k => (s.declared? k x).isSome) hj hsome
    obtain ⟨b, hb⟩ := Option.isSome_iff_exists.1 hk.holds
    rw [(s.resolve_eq_some_iff hi x b).2 ⟨k, hk, hb⟩] at h
    cases h
  · intro h
    refine Option.eq_none_iff_forall_ne_some.2 fun b hb => ?_
    obtain ⟨j, hj, hjb⟩ := (s.resolve_eq_some_iff hi x b).1 hb
    rw [h j hj.inside] at hjb
    cases hjb

/-- A scope that `var` stops at: made as that of a function, or not inside any. -/
def StopsVar (s : Session β n) (i : ScopeId) : Prop := s.isFunction i = true ∨ s.parent? i = none

theorem nearest_functionScope (s : Session β n) (hi : i < n) :
    s.Nearest s.StopsVar i (s.scopes.functionScope i) := by
  have hstops (j : ScopeId) : (s.isFunction j || (s.parent? j).isNone) = true ↔ s.StopsVar j := by
    simp [StopsVar]
  let g (j : ScopeId) : Option ScopeId :=
    if s.isFunction j || (s.parent? j).isNone then some j else none
  have hg (j : ScopeId) : (g j).isSome ↔ s.StopsVar j := Option.isSome_ite.trans (hstops j)
  obtain ⟨r, hr, hroot⟩ := s.exists_outermost i
  obtain ⟨j, hj⟩ := exists_nearest (P := fun k => (g k).isSome) hr ((hg r).2 (.inr hroot))
  have hfunction : s.scopes.functionScope i = j := by
    have hgj : g j = some j := if_pos ((hstops j).2 ((hg j).1 hj.holds))
    rw [functionScope, List.find?_eq_findSome?_guard, List.map_findSome?,
      (s.findSome?_chain (g := g) (fun k e hs => ?_) hi j).2 ⟨j, hj, hgj⟩, Option.getD_some]
    rw [Function.comp_apply, Option.guard, hs.isFunction]
    dsimp only [g]
    split <;> rfl
  rw [hfunction]
  exact ⟨hj.inside, (hg j).1 hj.holds, fun k hk hkj hne h => hj.before k hk hkj hne ((hg k).2 h)⟩

/-- A scope is seen from another by a name: it lies outwards, and no scope before it declares the
name. -/
structure Sees (s : Session β n) (i j : ScopeId) (x : Text) : Prop where
  inside : s.Inside i j
  before : ∀ k, s.Inside i k → s.Inside k j → k ≠ j → s.declared? k x = none

/-- What a declaration changes is what its name means where the scope is seen by it. -/
theorem resolve_declare (s : Session β n) (hi : i < n) (j : Fin n) (x : Text) (b : β) (y : Text) :
    (y = x ∧ s.Sees i j x → (s.declare j x b).scopes.resolve i y = some b) ∧
      (¬ (y = x ∧ s.Sees i j x) →
        (s.declare j x b).scopes.resolve i y = s.scopes.resolve i y) := by
  have hself : (s.declare j x b).declared? j x = some b := if_pos ⟨rfl, rfl⟩
  have hother {k : ScopeId} {y : Text} (h : ¬ (k = j ∧ y = x)) :
      (s.declare j x b).declared? k y = s.declared? k y := if_neg h
  constructor
  · rintro ⟨rfl, hsees⟩
    refine ((s.declare j y b).resolve_eq_some_iff hi y b).2 ⟨j, ⟨hsees.inside, by simp [hself], ?_⟩, hself⟩
    intro k hk hkj hne
    rw [hother fun h => hne h.1, hsees.before k hk hkj hne]
    nofun
  · intro hnot
    -- If the nearest declaration were the new one, before or after, the scope would be seen by it.
    refine Option.ext fun c => ?_
    rw [(s.declare j x b).resolve_eq_some_iff hi, s.resolve_eq_some_iff hi]
    constructor
    · rintro ⟨k, hk, hc⟩
      have hne : ¬ (k = j ∧ y = x) := by
        rintro ⟨rfl, rfl⟩
        refine hnot ⟨rfl, hk.inside, fun l hl hlk hne => ?_⟩
        rw [← hother fun h => hne h.1]
        exact Option.not_isSome_iff_eq_none.1 (hk.before l hl hlk hne)
      rw [hother hne] at hc
      refine ⟨k, ⟨hk.inside, by simp [hc], fun l hl hlk hlne h => hk.before l hl hlk hlne ?_⟩, hc⟩
      by_cases hlj : l = j ∧ y = x
      · obtain ⟨rfl, rfl⟩ := hlj
        simp [hself]
      · rwa [hother hlj]
    · rintro ⟨k, hk, hc⟩
      have hne {l : ScopeId} (hl : s.Inside i l) (hlk : s.Inside l k) : ¬ (l = j ∧ y = x) := by
        rintro ⟨rfl, rfl⟩
        refine hnot ⟨rfl, hl, fun m hm hml hmne => ?_⟩
        refine Option.not_isSome_iff_eq_none.1 (hk.before m hm (hml.trans hlk) fun he => ?_)
        exact hmne (Nat.le_antisymm (he ▸ hlk.le) hml.le)
      refine ⟨k, ⟨hk.inside, by simp [hother (hne hk.inside .refl), hc], fun l hl hlk hlne h => ?_⟩, ?_⟩
      · rw [hother (hne hl hlk)] at h
        exact hk.before l hl hlk hlne h
      · rw [hother (hne hk.inside .refl), hc]

end Account

/-- **Chains of scopes shadow and frame.** After any session, a name means in a scope what the nearest
scope outwards that declares it has declared last, and nothing if none does. A further declaration
changes what its own name means where its scope is seen by it, and nothing else. The function
around a scope is the nearest scope outwards that was made as a function's or is not inside any. -/
theorem resolve_session (s : Session β n) (i : Fin n) :
    (∀ x,
      (∀ b, s.scopes.resolve i x = some b ↔
        ∃ j, s.Nearest (fun k => (s.declared? k x).isSome) i j ∧ s.declared? j x = some b) ∧
      (s.scopes.resolve i x = none ↔ ∀ j, s.Inside i j → s.declared? j x = none)) ∧
    (∀ (j : Fin n) x b y,
      ((s.declare j x b).scopes.resolve i y ≠ s.scopes.resolve i y → y = x ∧ s.Sees i j x) ∧
      (s.Sees i j x → (s.declare j x b).scopes.resolve i x = some b)) ∧
    s.Nearest s.StopsVar i (s.scopes.functionScope i) := by
  refine ⟨fun x => ⟨s.resolve_eq_some_iff i.isLt x, s.resolve_eq_none_iff i.isLt x⟩,
    fun j x b y => ⟨fun hne => ?_, fun h => ?_⟩, s.nearest_functionScope i.isLt⟩
  · exact Classical.byContradiction fun hnot => hne ((s.resolve_declare i.isLt j x b y).2 hnot)
  · exact (s.resolve_declare i.isLt j x b x).1 ⟨rfl, h⟩

/-- A name in a block of a function, declared in the function after it was declared around it. -/
example :
    let s : Session Nat 3 :=
      .declare (.make (.declare (.make (.make .start none false) (some 0) true) 0 (text "x") 10)
        (some 1) false) 1 (text "x") 20
    s.scopes.resolve 2 (text "x") = some 20 ∧ s.scopes.functionScope 2 = 1 := by
  decide

end Session
end KeyTrace.Scopes
