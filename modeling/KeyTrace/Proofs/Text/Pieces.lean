/-
Cutting a text at a separator and joining the pieces.

Joining what was cut gives the text back. A text that goes on with a separator is cut
there too, unless an earlier separator reaches over the place (`CutAfter`).
-/
import KeyTrace.Text
import Mathlib.Algebra.Ring.Nat
import Mathlib.Data.List.Basic

namespace KeyTrace.Text

variable {sep t p x y : Text} {ps qs : List Text}

theorem after?_eq_some_iff : ∀ {p t r : Text}, after? p t = some r ↔ t = p ++ r
  | [], t, r => by simp [after?]
  | a :: p, [], r => by simp [after?]
  | a :: p, b :: t, r => by
    rw [after?]
    by_cases h : a = b
    · subst h
      rw [if_pos rfl, after?_eq_some_iff, List.cons_append, List.cons_inj_right]
    · rw [if_neg h]
      constructor
      · nofun
      · intro he
        exact absurd (List.cons.inj he).1.symm h

theorem startsWith_iff : startsWith t p = true ↔ p <+: t := by
  rw [startsWith, Option.isSome_iff_exists]
  constructor
  · rintro ⟨r, hr⟩
    exact ⟨r, (after?_eq_some_iff.1 hr).symm⟩
  · rintro ⟨r, rfl⟩
    exact ⟨r, after?_eq_some_iff.2 rfl⟩

theorem startsWith_eq_false_iff : startsWith t p = false ↔ ¬ p <+: t := by
  rw [← startsWith_iff, Bool.not_eq_true]

section Join

theorem join_cons_cons (sep p q : Text) (ps : List Text) :
    join sep (p :: q :: ps) = p ++ sep ++ join sep (q :: ps) := rfl

theorem join_cons (hps : ps ≠ []) : join sep (p :: ps) = p ++ sep ++ join sep ps := by
  obtain ⟨q, qs, rfl⟩ := List.exists_cons_of_ne_nil hps
  rfl

theorem join_append (hqs : qs ≠ []) : ∀ {ps : List Text}, ps ≠ [] →
    join sep (ps ++ qs) = join sep ps ++ sep ++ join sep qs
  | [p], _ => join_cons hqs
  | p :: q :: ps, _ => by
    have h : join sep (q :: ps ++ qs) = join sep (q :: ps) ++ sep ++ join sep qs :=
      join_append hqs (List.cons_ne_nil q ps)
    rw [List.cons_append, List.cons_append, join_cons_cons, join_cons_cons, ← List.cons_append, h]
    simp only [List.append_assoc]

/-- The separators count once between neighbours. -/
theorem length_join : ∀ {ps : List Text}, ps ≠ [] →
    (join sep ps).length = (ps.map List.length).sum + (ps.length - 1) * sep.length
  | [p], _ => by simp [join]
  | p :: q :: ps, _ => by
    have h := length_join (List.cons_ne_nil q ps)
    rw [join_cons_cons, List.length_append, List.length_append, h]
    simp only [List.map_cons, List.sum_cons, List.length_cons, Nat.add_sub_cancel, Nat.succ_mul]
    omega

theorem join_eq_nil_iff (hsep : sep ≠ []) (hps : ps ≠ []) : join sep ps = [] ↔ ps = [[]] := by
  match ps, hps with
  | [p], _ => simp [join]
  | p :: q :: ps, _ => simp [join_cons, hsep]

end Join

section Cut

theorem splitOn_ne_nil (sep t : Text) : splitOn sep t ≠ [] := splitFrom_ne_nil sep 0 t

theorem splitFrom_drop (sep : Text) : ∀ (k : Nat) (t : Text),
    splitFrom sep k t = splitOn sep (t.drop k)
  | 0, _ => rfl
  | _ + 1, [] => rfl
  | k + 1, _ :: t => splitFrom_drop sep k t

theorem splitOn_of_starts (hsep : sep ≠ []) (h : sep <+: t) :
    splitOn sep t = [] :: splitOn sep (t.drop sep.length) := by
  obtain ⟨r, rfl⟩ := h
  obtain ⟨c, s, rfl⟩ := List.exists_cons_of_ne_nil hsep
  rw [splitOn, List.cons_append, splitFrom, if_pos (startsWith_iff.2 ⟨r, by simp⟩), splitFrom_drop]
  simp

theorem splitOn_cons_of_not_starts {c : CodePoint} (h : ¬ sep <+: c :: t) :
    splitOn sep (c :: t) = consHead c (splitOn sep t) := by
  rw [splitOn, splitFrom, if_neg (by simpa [startsWith_iff] using h)]
  rfl

/-- To cut a text: a separator at its start is cut off, or else the first piece goes on. -/
theorem splitOn_induct {motive : Text → Prop} (hsep : sep ≠ []) (nil : motive [])
    (separator : ∀ r, motive r → motive (sep ++ r))
    (other : ∀ c r, ¬ sep <+: c :: r → motive r → motive (c :: r)) (t : Text) : motive t := by
  match t with
  | [] => exact nil
  | c :: r =>
    by_cases h : sep <+: c :: r
    · obtain ⟨s, hs⟩ := h
      have hlt : s.length < (c :: r).length := by
        have := List.length_pos_iff.2 hsep
        rw [← hs, List.length_append]
        omega
      rw [← hs]
      exact separator s (splitOn_induct hsep nil separator other s)
    · exact other c r h (splitOn_induct hsep nil separator other r)
termination_by t.length
decreasing_by
  · exact hlt
  · exact Nat.lt_succ_self r.length

theorem splitOn_append_left (hsep : sep ≠ []) (r : Text) :
    splitOn sep (sep ++ r) = [] :: splitOn sep r := by
  rw [splitOn_of_starts hsep (List.prefix_append sep r), List.drop_left]

/-- Joining what was cut gives the text back. -/
theorem join_splitOn (hsep : sep ≠ []) (t : Text) : join sep (splitOn sep t) = t := by
  induction t using splitOn_induct hsep with
  | nil => rfl
  | separator r ih => rw [splitOn_append_left hsep, join_cons (splitOn_ne_nil sep r), ih]; rfl
  | other c r h ih => rw [splitOn_cons_of_not_starts h, join_consHead, ih]

theorem length_consHead (c : CodePoint) (hps : ps ≠ []) : (consHead c ps).length = ps.length := by
  obtain ⟨p, ps, rfl⟩ := List.exists_cons_of_ne_nil hps
  rfl

theorem consHead_append (c : CodePoint) (hps : ps ≠ []) :
    consHead c (ps ++ qs) = consHead c ps ++ qs := by
  obtain ⟨p, ps, rfl⟩ := List.exists_cons_of_ne_nil hps
  rfl

theorem consHead_inj {c : CodePoint} (hps : ps ≠ []) (hqs : qs ≠ []) :
    consHead c ps = consHead c qs ↔ ps = qs := by
  obtain ⟨p, ps, rfl⟩ := List.exists_cons_of_ne_nil hps
  obtain ⟨q, qs, rfl⟩ := List.exists_cons_of_ne_nil hqs
  simp [consHead]

theorem occursIn_between (hsep : sep ≠ []) (x y : Text) : occursIn sep (x ++ sep ++ y) = true := by
  induction x with
  | nil =>
    obtain ⟨c, s, rfl⟩ := List.exists_cons_of_ne_nil hsep
    have h : startsWith (c :: (s ++ y)) (c :: s) = true := startsWith_iff.2 ⟨y, rfl⟩
    rw [List.nil_append, List.cons_append, occursIn, h, Bool.true_or]
  | cons c x ih => rw [List.cons_append, List.cons_append, occursIn, ih, Bool.or_true]

theorem occursIn_singleton (c : CodePoint) : ∀ t : Text, occursIn [c] t = true ↔ c ∈ t
  | [] => by simp [occursIn]
  | a :: t => by
    rw [occursIn, Bool.or_eq_true, startsWith_iff, occursIn_singleton c t, List.mem_cons]
    simp

/-- There is more than one piece just when the separator occurs. -/
theorem occursIn_iff (hsep : sep ≠ []) (t : Text) :
    occursIn sep t = true ↔ 1 < (splitOn sep t).length := by
  induction t using splitOn_induct hsep with
  | nil => simp [occursIn, splitOn, splitFrom, hsep]
  | separator r _ =>
    have hpos := List.length_pos_iff.2 (splitOn_ne_nil sep r)
    rw [splitOn_append_left hsep, List.length_cons]
    exact ⟨fun _ => by omega, fun _ => occursIn_between hsep [] r⟩
  | other c r h ih =>
    rw [occursIn, startsWith_eq_false_iff.2 h, Bool.false_or, ih, splitOn_cons_of_not_starts h,
      length_consHead c (splitOn_ne_nil sep r)]

end Cut

section Following

/-- A separator after the text is read as one: none that begins in the text reaches past its end. -/
def CutAfter (sep t : Text) : Prop := splitOn sep (t ++ sep) = splitOn sep t ++ [[]]

instance (sep t : Text) : Decidable (CutAfter sep t) := inferInstanceAs (Decidable (_ = _))

theorem cutAfter_nil (hsep : sep ≠ []) : CutAfter sep [] := by
  have h := splitOn_append_left hsep []
  rwa [List.append_nil] at h

theorem cutAfter_append_left (hsep : sep ≠ []) : CutAfter sep (sep ++ x) ↔ CutAfter sep x := by
  rw [CutAfter, CutAfter, List.append_assoc, splitOn_append_left hsep, splitOn_append_left hsep,
    List.cons_append, List.cons_inj_right]

theorem not_cutAfter_cons {c : CodePoint} (hsep : sep ≠ []) (h : ¬ sep <+: c :: x)
    (h' : sep <+: c :: (x ++ sep)) : ¬ CutAfter sep (c :: x) := by
  rw [CutAfter, List.cons_append, splitOn_of_starts hsep h', splitOn_cons_of_not_starts h]
  obtain ⟨p, ps, hps⟩ := List.exists_cons_of_ne_nil (splitOn_ne_nil sep x)
  simp [hps, consHead]

theorem cutAfter_cons {c : CodePoint} (h : ¬ sep <+: c :: x) (h' : ¬ sep <+: c :: (x ++ sep)) :
    CutAfter sep (c :: x) ↔ CutAfter sep x := by
  rw [CutAfter, CutAfter, List.cons_append, splitOn_cons_of_not_starts h',
    splitOn_cons_of_not_starts h, ← consHead_append c (splitOn_ne_nil sep x)]
  exact consHead_inj (splitOn_ne_nil sep _) (by simp)

/-- A separator at the start of a text with a separator in it ends with that one at the latest. -/
theorem prefix_append_left_iff : sep <+: x ++ sep ++ y ↔ sep <+: x ++ sep := by
  constructor
  · exact fun h => List.prefix_of_prefix_length_le h (List.prefix_append _ y) (by simp)
  · exact fun h => h.trans (List.prefix_append _ y)

/-- The pieces before a separator, and the pieces after it. -/
theorem splitOn_append (hsep : sep ≠ []) (y : Text) (h : CutAfter sep x) :
    splitOn sep (x ++ sep ++ y) = splitOn sep x ++ splitOn sep y := by
  induction x using splitOn_induct hsep with
  | nil => exact splitOn_append_left hsep y
  | separator r ih =>
    rw [List.append_assoc, List.append_assoc, splitOn_append_left hsep, splitOn_append_left hsep,
      ← List.append_assoc, ih ((cutAfter_append_left hsep).1 h), List.cons_append]
  | other c r hc ih =>
    have hc' : ¬ sep <+: c :: (r ++ sep) := fun h' => not_cutAfter_cons hsep hc h' h
    have hcy : ¬ sep <+: c :: (r ++ sep ++ y) := fun h' =>
      hc' ((prefix_append_left_iff (x := c :: r)).1 h')
    rw [List.cons_append, List.cons_append, splitOn_cons_of_not_starts hcy,
      splitOn_cons_of_not_starts hc, ih ((cutAfter_cons hc hc').1 h),
      consHead_append c (splitOn_ne_nil sep r)]

/-- Where a separator of one character stands, it is read. -/
theorem cutAfter_singleton (c : CodePoint) (x : Text) : CutAfter [c] x := by
  induction x with
  | nil => exact cutAfter_nil (List.cons_ne_nil c [])
  | cons a x ih =>
    by_cases h : c = a
    · subst h
      exact (cutAfter_append_left (List.cons_ne_nil c [])).2 ih
    · exact (cutAfter_cons (by simpa using h) (by simpa using h)).2 ih

/-- The pieces between separators of one character do not have it. -/
theorem not_mem_of_mem_splitOn {c : CodePoint} (ht : x ∈ splitOn [c] t) : c ∉ x := by
  induction t using splitOn_induct (List.cons_ne_nil c []) generalizing x with
  | nil =>
    cases List.mem_singleton.1 ht
    exact List.not_mem_nil
  | separator r ih =>
    rw [splitOn_append_left (List.cons_ne_nil c []), List.mem_cons] at ht
    rcases ht with rfl | ht
    · exact List.not_mem_nil
    · exact ih ht
  | other a r h ih =>
    have hne : c ≠ a := by simpa using h
    obtain ⟨p, ps, hps⟩ := List.exists_cons_of_ne_nil (splitOn_ne_nil [c] r)
    rw [splitOn_cons_of_not_starts h, hps, consHead, List.mem_cons] at ht
    rw [hps] at ih
    rcases ht with rfl | ht
    · exact List.not_mem_cons_of_ne_of_not_mem hne (ih List.mem_cons_self)
    · exact ih (List.mem_cons_of_mem p ht)

theorem splitOn_of_not_mem {c : CodePoint} (h : c ∉ t) : splitOn [c] t = [t] := by
  have hcut : ¬ occursIn [c] t = true := fun h' => h ((occursIn_singleton c t).1 h')
  rw [occursIn_iff (List.cons_ne_nil c []), Nat.not_lt] at hcut
  obtain ⟨p, ps, hps⟩ := List.exists_cons_of_ne_nil (splitOn_ne_nil [c] t)
  rw [hps] at hcut
  obtain rfl : ps = [] := by simpa using hcut
  have hjoin := join_splitOn (List.cons_ne_nil c []) t
  rw [hps] at hjoin
  rw [hps, ← hjoin]
  rfl

/-- Cutting takes apart what was joined, if no part has the separator. -/
theorem splitOn_join {c : CodePoint} : ∀ {ps : List Text}, ps ≠ [] → (∀ p ∈ ps, c ∉ p) →
    splitOn [c] (join [c] ps) = ps
  | [p], _, h => splitOn_of_not_mem (h p List.mem_cons_self)
  | p :: q :: ps, _, h => by
    rw [join_cons_cons, splitOn_append (List.cons_ne_nil c []) _ (cutAfter_singleton c p),
      splitOn_of_not_mem (h p List.mem_cons_self),
      splitOn_join (List.cons_ne_nil q ps) fun x hx => h x (List.mem_cons_of_mem p hx)]
    rfl

theorem splitOn_of_length_lt : ∀ {t : Text}, t.length < sep.length → splitOn sep t = [t]
  | [], _ => rfl
  | c :: t, h => by
    have hc : ¬ sep <+: c :: t := fun h' => absurd h'.length_le (by omega)
    rw [splitOn_cons_of_not_starts hc, splitOn_of_length_lt (by simp at h; omega)]
    rfl

/-- A separator that begins in a text and reaches past its end is read in place of the end of the
text, up to which all is read as in the text alone. -/
theorem exists_of_not_cutAfter (hsep : sep ≠ []) (new : Text) (h : ¬ CutAfter sep x) :
    ∃ a r, r ≠ [] ∧ r <+: sep ∧ join new (splitOn sep x) = a ++ r ∧
      ∀ y, ∃ z, join new (splitOn sep (x ++ sep ++ y)) = a ++ new ++ z := by
  induction x using splitOn_induct hsep with
  | nil => exact absurd (cutAfter_nil hsep) h
  | separator t ih =>
    obtain ⟨a, r, hr, hsub, hx, hy⟩ := ih (mt (cutAfter_append_left hsep).2 h)
    refine ⟨new ++ a, r, hr, hsub, ?_, fun y => ?_⟩
    · rw [splitOn_append_left hsep, join_cons (splitOn_ne_nil sep t), hx]
      simp only [List.nil_append, List.append_assoc]
    · obtain ⟨z, hz⟩ := hy y
      refine ⟨z, ?_⟩
      rw [List.append_assoc, List.append_assoc, splitOn_append_left hsep,
        join_cons (splitOn_ne_nil sep _), ← List.append_assoc t, hz]
      simp only [List.nil_append, List.append_assoc]
  | other c t hc ih =>
    -- The separator may start in the text and end in the one put behind it.
    by_cases hc' : sep <+: c :: (t ++ sep)
    · have hlen : (c :: t).length < sep.length := by
        by_contra hge
        exact hc (List.prefix_of_prefix_length_le hc' (List.prefix_append (c :: t) sep) (by omega))
      refine ⟨[], c :: t, by simp, ?_, by rw [splitOn_of_length_lt hlen]; rfl, fun y => ?_⟩
      · exact List.prefix_of_prefix_length_le (List.prefix_append (c :: t) sep) hc'
          (Nat.le_of_lt hlen)
      · have hy : sep <+: c :: t ++ sep ++ y := prefix_append_left_iff.2 hc'
        rw [splitOn_of_starts hsep hy, join_cons (splitOn_ne_nil sep _)]
        exact ⟨_, rfl⟩
    · obtain ⟨a, r, hr, hsub, hx, hy⟩ := ih (mt (cutAfter_cons hc hc').2 h)
      refine ⟨c :: a, r, hr, hsub, ?_, fun y => ?_⟩
      · rw [splitOn_cons_of_not_starts hc, join_consHead, hx, List.cons_append]
      · obtain ⟨z, hz⟩ := hy y
        have hcy : ¬ sep <+: c :: (t ++ sep ++ y) := fun h' =>
          hc' ((prefix_append_left_iff (x := c :: t)).1 h')
        refine ⟨z, ?_⟩
        rw [List.cons_append, List.cons_append, splitOn_cons_of_not_starts hcy, join_consHead, hz]
        rfl

end Following

end KeyTrace.Text
