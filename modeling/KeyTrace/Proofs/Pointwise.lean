/-
Lists that go together element by element: what is found in one, and what is in it,
answers to what is found or is in the other.
-/
import Mathlib.Data.List.Forall2

namespace KeyTrace.Pointwise

variable {α β γ : Type} {R : α → β → Prop} {l : List α} {m : List β}

theorem exists_of_mem_left (h : List.Forall₂ R l m) {a : α} (ha : a ∈ l) : ∃ b ∈ m, R a b := by
  induction h with
  | nil => simp at ha
  | cons hab _ ih =>
    rcases List.mem_cons.1 ha with rfl | ha
    · exact ⟨_, List.mem_cons_self, hab⟩
    · obtain ⟨b, hb, hr⟩ := ih ha
      exact ⟨b, List.mem_cons_of_mem _ hb, hr⟩

theorem exists_of_mem_right (h : List.Forall₂ R l m) {b : β} (hb : b ∈ m) : ∃ a ∈ l, R a b := by
  obtain ⟨a, ha, hr⟩ := exists_of_mem_left (R := flip R) h.flip hb
  exact ⟨a, ha, hr⟩

theorem find?_eq_some {f : α → Bool} {g : β → Bool} (hfg : ∀ a b, R a b → f a = g b)
    (h : List.Forall₂ R l m) {b : β} (hb : m.find? g = some b) :
    ∃ a, l.find? f = some a ∧ R a b := by
  induction h with
  | nil => simp at hb
  | cons hab _ ih =>
    rw [List.find?_cons] at hb ⊢
    rw [hfg _ _ hab]
    split at hb
    · cases hb
      exact ⟨_, rfl, hab⟩
    · exact ih hb

theorem head?_rel (h : List.Forall₂ R l m) : Option.Rel R l.head? m.head? := by
  cases h with
  | nil => exact .none
  | cons hab _ => exact .some hab

theorem option_of_map {δ : Type} {f : α → γ} {g : β → δ} {S : γ → δ → Prop} :
    ∀ {o : Option α} {o' : Option β}, Option.Rel S (o.map f) (o'.map g) →
    Option.Rel (fun a b => S (f a) (g b)) o o'
  | none, none, _ => .none
  | some _, some _, .some h => .some h

theorem option_of_map_eq {f : α → γ} {g : β → γ} (hR : ∀ a b, f a = g b → R a b) :
    ∀ {o : Option α} {o' : Option β}, o.map f = o'.map g → Option.Rel R o o'
  | none, none, _ => .none
  | some a, some b, h => .some (hR a b (Option.some.inj h))

theorem option_imp {S : α → β → Prop} (hS : ∀ a b, R a b → S a b) : ∀ {o : Option α} {o' : Option β},
    Option.Rel R o o' → Option.Rel S o o'
  | none, none, _ => .none
  | some a, some b, .some h => .some (hS a b h)

theorem option_same {S : α → α → Prop} {o : Option α} (h : ∀ a, o = some a → S a a) :
    Option.Rel S o o := by
  cases o with
  | none => exact .none
  | some a => exact .some (h a rfl)

theorem find?_rel {f : α → Bool} {g : β → Bool} (hfg : ∀ a b, R a b → (f a = true ↔ g b = true))
    (h : List.Forall₂ R l m) : Option.Rel R (l.find? f) (m.find? g) := by
  rw [← List.head?_filter, ← List.head?_filter]
  exact head?_rel (List.rel_filter (fun a b => hfg a b) h)

theorem findSome?_eq {f : α → Option γ} {g : β → Option γ} (hfg : ∀ a b, R a b → f a = g b)
    (h : List.Forall₂ R l m) : l.findSome? f = m.findSome? g := by
  induction h with
  | nil => rfl
  | cons hab _ ih => rw [List.findSome?_cons, List.findSome?_cons, hfg _ _ hab, ih]

/-- Two lists that go with a third go together. -/
theorem compose {S : α → γ → Prop} {T : β → γ → Prop} {m' : List γ} (h : List.Forall₂ R l m)
    (h' : List.Forall₂ S l m') (hT : ∀ a ∈ l, ∀ b c, R a b → S a c → T b c) :
    List.Forall₂ T m m' := by
  induction h generalizing m' with
  | nil =>
    cases h'
    exact .nil
  | cons hab _ ih =>
    cases h' with
    | cons hac h' =>
      exact .cons (hT _ List.mem_cons_self _ _ hab hac)
        (ih h' fun a ha => hT a (List.mem_cons_of_mem _ ha))

theorem imp {S : α → β → Prop} (h : List.Forall₂ R l m) (hS : ∀ a ∈ l, ∀ b, R a b → S a b) :
    List.Forall₂ S l m := by
  induction h with
  | nil => exact .nil
  | cons hab _ ih =>
    exact .cons (hS _ List.mem_cons_self _ hab) (ih fun a ha => hS a (List.mem_cons_of_mem _ ha))

/-- What is true of any two elements of a list in their order is carried over to a list that goes with
it. -/
theorem pairwise {P : α → α → Prop} {Q : β → β → Prop} (h : List.Forall₂ R l m) (hp : l.Pairwise P)
    (hq : ∀ a ∈ l, ∀ a' ∈ l, ∀ b b', P a a' → R a b → R a' b' → Q b b') : m.Pairwise Q := by
  induction h with
  | nil => exact .nil
  | cons hab h ih =>
    obtain ⟨ha, hp⟩ := List.pairwise_cons.1 hp
    refine .cons (fun b' hb' => ?_) (ih hp fun a ha a' ha' =>
      hq a (List.mem_cons_of_mem _ ha) a' (List.mem_cons_of_mem _ ha'))
    obtain ⟨a', ha', hab'⟩ := exists_of_mem_right h hb'
    exact hq _ List.mem_cons_self a' (List.mem_cons_of_mem _ ha') _ _ (ha a' ha') hab hab'

end KeyTrace.Pointwise
