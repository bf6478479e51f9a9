/-
The outcome of a computation with a log, by the outcomes of its parts.
-/
import KeyTrace.Analysis.Traced
import Mathlib.Data.List.Forall2

namespace KeyTrace.Traced

variable {α β : Type}

instance : LawfulMonad Traced := LawfulMonad.mk' Traced
  (by
    intro α x
    obtain ⟨log, outcome⟩ := x
    cases outcome with
    | error e => rfl
    | ok a => simp [Functor.map, Traced.bind, Traced.pure])
  (by
    intro α β a f
    simp [Bind.bind, Traced.bind, Pure.pure, Traced.pure])
  (by
    intro α β γ x f g
    obtain ⟨log, outcome⟩ := x
    cases outcome with
    | error e => rfl
    | ok a =>
      cases hf : (f a).outcome with
      | error e => simp [Bind.bind, Traced.bind, hf]
      | ok b => simp [Bind.bind, Traced.bind, hf])

theorem ofCooked_ok_iff {x : Except Literal.InvalidEscape α} {a : α} :
    (ofCooked x).outcome = .ok a ↔ x = .ok a := by
  cases x with
  | error e => simp [ofCooked, ofExcept, Except.mapError]
  | ok b => simp [ofCooked, ofExcept, Except.mapError]

theorem outcome_of_toOption {x : Traced α} {a : α} (h : x.outcome.toOption = some a) :
    x.outcome = .ok a := by
  cases hx : x.outcome with
  | error e =>
    rw [hx] at h
    cases h
  | ok b =>
    rw [hx] at h
    exact congrArg _ (Option.some.inj h)

/-- Doing something for each element has a result just when each has one. -/
theorem mapM_ok_iff {f : α → Traced β} : ∀ {l : List α} {bs : List β},
    (l.mapM f).outcome = .ok bs ↔ List.Forall₂ (fun a b => (f a).outcome = .ok b) l bs
  | [], bs => by
    rw [List.mapM_nil, pure_outcome, Except.ok.injEq, List.forall₂_nil_left_iff, eq_comm]
  | a :: l, bs => by
    rw [List.mapM_cons, bind_ok_iff, List.forall₂_cons_left_iff]
    constructor
    · rintro ⟨b, hb, h⟩
      obtain ⟨bs', hbs, h⟩ := bind_ok_iff.1 h
      exact ⟨b, bs', hb, mapM_ok_iff.1 hbs, (Except.ok.inj h).symm⟩
    · rintro ⟨b, bs', hb, hbs, rfl⟩
      exact ⟨b, hb, bind_ok_iff.2 ⟨bs', mapM_ok_iff.2 hbs, rfl⟩⟩

/-- A relation between computations that doing nothing keeps, and doing one thing after another. -/
structure Congruence (R : ∀ {α : Type}, Traced α → Traced α → Prop) : Prop where
  pure {α : Type} (a : α) : R (Pure.pure a) (Pure.pure a)
  bind {α β : Type} {x y : Traced α} {f g : α → Traced β} : R x y →
    (∀ a, x.outcome = .ok a → R (f a) (g a)) → R (x >>= f) (y >>= g)

namespace Congruence

variable {R : ∀ {α : Type}, Traced α → Traced α → Prop}

theorem mapM (hR : Congruence R) {γ γ' : Type} {f : γ → Traced β} {g : γ' → Traced β} :
    ∀ {l : List γ} {l' : List γ'}, List.Forall₂ (fun c c' => R (f c) (g c')) l l' →
    R (l.mapM f) (l'.mapM g)
  | _, _, .nil => hR.pure _
  | _, _, .cons h hl => by
    rw [List.mapM_cons, List.mapM_cons]
    exact hR.bind h fun b _ => hR.bind (hR.mapM hl) fun bs _ => hR.pure _

theorem foldlM (hR : Congruence R) {γ γ' : Type} {f : β → γ → Traced β} {g : β → γ' → Traced β} :
    ∀ {l : List γ} {l' : List γ'} (b : β), List.Forall₂ (fun c c' => ∀ b, R (f b c) (g b c')) l l' →
    R (l.foldlM f b) (l'.foldlM g b)
  | _, _, b, .nil => hR.pure b
  | _, _, b, .cons h hl => by
    rw [List.foldlM_cons, List.foldlM_cons]
    exact hR.bind (h b) fun b' _ => hR.foldlM b' hl

end Congruence

/-- Computations that are the same. -/
theorem congruence_eq : Congruence (fun x y => x = y) where
  pure _ := rfl
  bind {_ _ x _ f g} hx hk := by
    subst hx
    cases h : x.outcome with
    | ok a => rw [bind_of_ok h, bind_of_ok h, hk a h]
    | error e => rw [bind_of_error h, bind_of_error h]

/-- Computations that come to the same. -/
theorem congruence_outcome : Congruence (fun x y => x.outcome = y.outcome) where
  pure _ := rfl
  bind {_ _ x _ f g} hx hk := by
    cases h : x.outcome with
    | ok a => rw [bind_of_ok h, bind_of_ok (hx ▸ h), hk a h]
    | error e => rw [bind_of_error h, bind_of_error (hx ▸ h)]

/-- Doing the same after the same comes to the same. -/
theorem bind_outcome_congr {x x' : Traced α} {k k' : α → Traced β} (hx : x.outcome = x'.outcome)
    (hk : ∀ a, (k a).outcome = (k' a).outcome) : (x >>= k).outcome = (x' >>= k').outcome :=
  congruence_outcome.bind hx fun a _ => hk a

section Blame

variable {importer : Option Importer} {x : Traced α} {a : α}

/-- Whatever a computation fails with, the importer has failed with. -/
def Blames (x : Traced α) (importer : Option Importer) : Prop :=
  ∀ f, x.outcome = .error f → ∃ i ∈ importer, ∃ module, (i module).text = .error f

theorem Blames.of_ok (h : x.outcome = .ok a) : x.Blames importer := by
  intro f hf
  rw [h] at hf
  cases hf

theorem Blames.pure (a : α) : (Pure.pure a : Traced α).Blames importer := .of_ok rfl

theorem Blames.of_cooked {y : Except Literal.InvalidEscape α} (h : ∃ a, y = .ok a) :
    (ofCooked y).Blames importer :=
  h.elim fun _ h => .of_ok (ofCooked_ok_iff.2 h)

/-- Without an importer there is none to blame. -/
theorem Blames.of_none (h : x.Blames none) : x.Blames importer := by
  intro f hf
  obtain ⟨i, hi, -⟩ := h f hf
  cases hi

theorem Blames.bind {k : α → Traced β} (hx : x.Blames importer)
    (hk : ∀ a, x.outcome = .ok a → (k a).Blames importer) : (x >>= k).Blames importer := by
  intro f hf
  cases h : x.outcome with
  | ok a =>
    rw [bind_of_ok h] at hf
    exact hk a h f hf
  | error e =>
    rw [bind_of_error h] at hf
    exact hx f (h.trans (congrArg _ (Except.error.inj hf)))

/-- Computations that are the same and fail at most as the importer does. -/
theorem Blames.congruence (importer : Option Importer) :
    Congruence (fun x y => x = y ∧ x.Blames importer) where
  pure a := ⟨rfl, .pure a⟩
  bind hx hk := ⟨congruence_eq.bind hx.1 fun a ha => (hk a ha).1, hx.2.bind fun a ha => (hk a ha).2⟩

theorem Blames.mapM {g : α → Traced β} {l : List α} (h : ∀ a ∈ l, (g a).Blames importer) :
    (l.mapM g).Blames importer :=
  ((Blames.congruence importer).mapM (List.forall₂_same.2 fun a ha => ⟨rfl, h a ha⟩)).2

end Blame

end KeyTrace.Traced
