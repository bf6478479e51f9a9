/-
Text that is its own literal.

Cooking never makes a text longer, and an escape always makes it shorter. So the text between two
quotes stands for itself just if there is no escape in it, and without escapes any text can stand
there that has neither the quote nor a backslash, LF or CR.
-/
import KeyTrace.Proofs.Literal.StringValue

namespace KeyTrace.Literal

variable {quote : CodePoint} {t v : Text} {units : List Nat}

/-- A text that may stand between two quotes as it is. -/
def Verbatim (quote : CodePoint) (t : Text) : Prop :=
  ∀ c ∈ t, c ≠ quote ∧ c ≠ 92 ∧ c ≠ 10 ∧ c ≠ 13

instance (quote : CodePoint) (t : Text) : Decidable (Verbatim quote t) :=
  inferInstanceAs (Decidable (∀ c ∈ t, c ≠ quote ∧ c ≠ 92 ∧ c ≠ 10 ∧ c ≠ 13))

theorem Verbatim.stringCharacters (h : Verbatim quote t) :
    StringCharacters quote t (codeUnits t) := by
  induction t with
  | nil => exact .nil
  | cons c t ih =>
    obtain ⟨⟨hq, hb, hlf, hcr⟩, ht⟩ := List.forall_mem_cons.1 h
    rw [codeUnits_cons]
    exact .character hq hb hlf hcr (ih ht)

theorem Verbatim.cook_eq (h : Verbatim quote t) : cook t = .ok t := by
  induction t with
  | nil => rfl
  | cons c t ih =>
    obtain ⟨⟨-, hb, -⟩, ht⟩ := List.forall_mem_cons.1 h
    exact (cook_cons_ok_iff hb).2 ⟨t, ih ht, rfl⟩

theorem length_escape_le {e : Escape} (h : e.value = .ok v) : v.length ≤ 1 := by
  cases e with
  | numeric p =>
    cases h
    exact Nat.le_refl 1
  | braced p body =>
    rw [Escape.value] at h
    split at h
    · cases h
    · cases h
      exact Nat.le_refl 1
  | continuation =>
    cases h
    exact Nat.zero_le 1
  | single c =>
    cases h
    exact Nat.le_refl 1

/-- What is cooked gets shorter, unless there is no backslash in it but for one at its end, which
escapes nothing. -/
theorem cook_shortens : ∀ {t v : Text}, cook t = .ok v →
    v.length < t.length ∨ v = t ∧ 92 ∉ t.dropLast
  | [], _, h => by
    cases h
    exact .inr ⟨rfl, nofun⟩
  | [c], v, h => by
    refine .inr ⟨?_, nofun⟩
    by_cases hc : c = 92
    · subst hc
      cases h
      rfl
    · obtain ⟨w, hw, rfl⟩ := (cook_cons_ok_iff hc).1 h
      cases hw
      rfl
  -- An escape has a value that is shorter than it is; any other character is its own.
  | c :: d :: r, v, h => by
    by_cases hc : c = 92
    · subst hc
      obtain ⟨e, n, he, -, -⟩ := escapes d r
      obtain ⟨x, y, hx, hy, rfl⟩ := (cook_escape_ok_iff he).1 h
      rw [List.drop_succ_cons] at hy
      have hx := length_escape_le hx
      have hy : y.length ≤ (r.drop n).length := by
        rcases cook_shortens hy with hlt | ⟨rfl, -⟩
        · exact Nat.le_of_lt hlt
        · exact Nat.le_refl _
      left
      rw [List.length_drop] at hy
      rw [List.length_append, List.length_cons, List.length_cons]
      omega
    · obtain ⟨w, hw, rfl⟩ := (cook_cons_ok_iff hc).1 h
      rcases cook_shortens hw with hlt | ⟨rfl, hnot⟩
      · exact .inl (Nat.succ_lt_succ hlt)
      · exact .inr ⟨rfl, List.not_mem_cons_of_ne_of_not_mem (Ne.symm hc) hnot⟩
termination_by t => t.length
decreasing_by all_goals simp only [List.length_cons, List.length_drop]; omega

/-- The text of a literal without an escape stands there as it is. -/
theorem StringCharacters.verbatim (h : StringCharacters quote t units) (hb : 92 ∉ t.dropLast) :
    Verbatim quote t := by
  induction h with
  | nil => exact nofun
  | @character c r v hq hc hlf hcr hr ih =>
    refine List.forall_mem_cons.2 ⟨⟨hq, hc, hlf, hcr⟩, ih fun hm => hb ?_⟩
    rw [List.dropLast_cons_of_ne_nil (List.ne_nil_of_mem (List.dropLast_subset r hm))]
    exact List.mem_cons_of_mem c hm
  | escape he _ _ =>
    obtain ⟨c, tail, rfl, -⟩ := he.plain
    exact absurd List.mem_cons_self hb
  | continuation hl _ _ =>
    obtain ⟨c, tail, rfl, -⟩ := hl.plain
    exact absurd List.mem_cons_self hb

end KeyTrace.Literal
