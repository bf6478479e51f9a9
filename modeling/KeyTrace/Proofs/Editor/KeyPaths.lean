/-
Taking the namespace off a key path: when the rest is the local key
(`rewrite_qualified`), and what becomes of keys that are not under the namespace
(`rewrite_foreign`).

The cut is as long as the namespace was before its delimiters became dots, and
what follows the namespace is not looked at. So a namespace with long delimiters
takes too much away, and one that ends inside a segment takes a part of it.
-/
import KeyTrace.Editor.KeyPath
import KeyTrace.Proofs.Text.Pieces

namespace KeyTrace.KeyPath

open Text

variable {d ns key : Text}

section Dotted

theorem dotted_cutAfter (hd : d ≠ []) (h : CutAfter d ns) (key : Text) :
    dotted d (ns ++ d ++ key) = dotted d ns ++ dot ++ dotted d key := by
  rw [dotted, replaceAll, splitOn_append hd key h]
  exact join_append (splitOn_ne_nil d key) (splitOn_ne_nil d ns)

theorem dotted_eq_nil_iff (hd : d ≠ []) : dotted d key = [] ↔ key = [] := by
  rw [dotted, replaceAll, join_eq_nil_iff (by decide) (splitOn_ne_nil d key)]
  constructor
  · intro h
    rw [← join_splitOn hd key, h]
    rfl
  · rintro rfl
    rfl

theorem length_dotted (hd : d ≠ []) (t : Text) :
    t.length = (dotted d t).length + ((splitOn d t).length - 1) * (d.length - 1) := by
  have hne := splitOn_ne_nil d t
  have hold : t.length = ((splitOn d t).map List.length).sum +
      ((splitOn d t).length - 1) * d.length := by
    conv_lhs => rw [← join_splitOn hd t]
    exact length_join hne
  have hnew : (dotted d t).length = ((splitOn d t).map List.length).sum +
      ((splitOn d t).length - 1) * 1 := length_join hne
  obtain ⟨k, hk⟩ : ∃ k, d.length = k + 1 := Nat.exists_eq_succ_of_ne_zero (by simpa using hd)
  rw [hold, hnew, hk, Nat.add_sub_cancel, Nat.mul_succ]
  omega

end Dotted

section Rewrite

theorem rewrite_none (d key : Text) : rewrite d none key = dotted d key := rfl

theorem rewrite_eq (hns : ns ≠ []) (d key : Text) :
    rewrite d (some ns) key =
      if occursIn d key && startsWith (dotted d key) (dotted d ns) then
        (dotted d key).drop (ns.length + 1)
      else dotted d key := by
  obtain ⟨c, cs, rfl⟩ := List.exists_cons_of_ne_nil hns
  rfl

theorem rewrite_of_starts (hns : ns ≠ []) (hocc : occursIn d key = true)
    (h : dotted d ns <+: dotted d key) :
    rewrite d (some ns) key = (dotted d key).drop (ns.length + 1) := by
  rw [rewrite_eq hns, hocc, startsWith_iff.2 h]
  rfl

theorem rewrite_of_not_starts (hns : ns ≠ []) (h : ¬ dotted d ns <+: dotted d key) :
    rewrite d (some ns) key = dotted d key := by
  rw [rewrite_eq hns, startsWith_eq_false_iff.2 h, Bool.and_false]
  rfl

theorem rewrite_of_not_occursIn (hns : ns ≠ []) (hocc : occursIn d key = false) :
    rewrite d (some ns) key = dotted d key := by
  rw [rewrite_eq hns, hocc, Bool.false_and]
  rfl

end Rewrite

section Qualified

/-- The cut takes the namespace, one character, and then as much of the key as the dots have
made the namespace shorter. -/
theorem rewrite_cutAfter (hd : d ≠ []) (hns : ns ≠ []) (h : CutAfter d ns) (key : Text) :
    rewrite d (some ns) (ns ++ d ++ key) =
      (dotted d key).drop (((splitOn d ns).length - 1) * (d.length - 1)) := by
  have hdot := dotted_cutAfter hd h key
  rw [rewrite_of_starts hns (occursIn_between hd ns key) ⟨dot ++ dotted d key, by rw [hdot, List.append_assoc]⟩,
    hdot, length_dotted hd ns, List.append_assoc, Nat.add_assoc, ← List.drop_drop, List.drop_left]
  rfl

theorem drop_eq_self_iff {l : Text} {n : Nat} : l.drop n = l ↔ n = 0 ∨ l = [] := by
  constructor
  · intro h
    have hlen := congrArg List.length h
    rw [List.length_drop] at hlen
    rcases Nat.eq_zero_or_pos n with hn | hn
    · exact .inl hn
    · exact .inr (List.length_eq_zero_iff.1 (by omega))
  · rintro (rfl | rfl) <;> simp

/-- **A qualified key without its namespace is the local key with dots just when** the delimiter is
one character, does not occur in the namespace, or no key follows; that is if the delimiter after
the namespace is read as one, as every delimiter of one character is. Otherwise nothing is taken
off, unless the delimiter itself begins with a dot. -/
theorem rewrite_qualified (hd : d ≠ []) (hns : ns ≠ []) (key : Text) :
    (CutAfter d ns →
      (rewrite d (some ns) (ns ++ d ++ key) = rewrite d none key ↔
        d.length = 1 ∨ occursIn d ns = false ∨ key = [])) ∧
    (d.length = 1 → rewrite d (some ns) (ns ++ d ++ key) = rewrite d none key) ∧
    (¬ CutAfter d ns → d.head? ≠ some (cp '.') →
      rewrite d (some ns) (ns ++ d ++ key) = rewrite d none (ns ++ d ++ key)) := by
  have hiff : CutAfter d ns → (rewrite d (some ns) (ns ++ d ++ key) = rewrite d none key ↔
      d.length = 1 ∨ occursIn d ns = false ∨ key = []) := by
    intro hcut
    have hocc : occursIn d ns = false ↔ (splitOn d ns).length - 1 = 0 := by
      rw [← Bool.not_eq_true, occursIn_iff hd]
      omega
    have hlen : d.length - 1 = 0 ↔ d.length = 1 := by
      have := List.length_pos_iff.2 hd
      omega
    rw [rewrite_cutAfter hd hns hcut, rewrite_none, drop_eq_self_iff, dotted_eq_nil_iff hd,
      Nat.mul_eq_zero, hocc, hlen]
    exact ⟨fun h => by tauto, fun h => by tauto⟩
  refine ⟨hiff, fun hone => ?_, fun hcut hdot => ?_⟩
  · obtain ⟨c, rfl⟩ := List.length_eq_one_iff.1 hone
    exact (hiff (cutAfter_singleton c ns)).2 (.inl hone)
  · obtain ⟨a, r, hr, hsub, hx, hy⟩ := exists_of_not_cutAfter hd dot hcut
    obtain ⟨z, hz⟩ := hy key
    refine rewrite_of_not_starts hns fun h => hdot ?_
    rw [dotted, dotted, replaceAll, replaceAll, hx, hz, List.append_assoc,
      List.prefix_append_right_inj] at h
    -- What is left of the namespace begins both the delimiter and the dot.
    obtain ⟨c, s, rfl⟩ := List.exists_cons_of_ne_nil hr
    obtain ⟨t, rfl⟩ := hsub
    obtain ⟨rfl, -⟩ := List.cons_prefix_cons.1 h
    rfl

/-- A namespace with a delimiter of two characters takes the local key away with it. -/
theorem rewrite_longDelimiter :
    rewrite (text "::") (some (text "a::b")) (text "a::b" ++ text "::" ++ text "c") = [] ∧
      rewrite (text "::") none (text "c") = text "c" := by
  decide

/-- A namespace without the delimiter leaves the local key, whatever stands in that. -/
theorem rewrite_qualified_plain :
    rewrite (text "::") (some (text "auth")) (text "auth" ++ text "::" ++ text "login::title") =
      rewrite (text "::") none (text "login::title") :=
  ((rewrite_qualified (by decide) (by decide) _).1 (by decide)).2 (.inr (.inl (by decide)))

end Qualified

section Foreign

/-- The segments of a namespace are the first of those of a key, which has more of them. -/
def Under (ns key : Text) : Prop :=
  ∃ rest, rest ≠ [] ∧ splitOn dot key = splitOn dot ns ++ rest

theorem under_iff : Under ns key ↔ ns ++ dot <+: key := by
  constructor
  · rintro ⟨rest, hrest, h⟩
    refine ⟨join dot rest, ?_⟩
    have hjoin : join dot (splitOn dot ns ++ rest) = _ := join_append hrest (splitOn_ne_nil dot ns)
    rw [← h, join_splitOn (by decide), join_splitOn (by decide)] at hjoin
    exact hjoin.symm
  · rintro ⟨r, rfl⟩
    exact ⟨splitOn dot r, splitOn_ne_nil dot r,
      splitOn_append (by decide) r (cutAfter_singleton (cp '.') ns)⟩

variable {c : CodePoint} {x : Text}

theorem length_dotted_singleton (c : CodePoint) (t : Text) : (dotted [c] t).length = t.length := by
  simpa using (length_dotted (List.cons_ne_nil c []) t).symm

/-- The cut takes the namespace and the character after it, whatever that is. -/
theorem rewrite_append (hns : ns ≠ []) (hc : c ∈ key) (hx : dotted [c] key = dotted [c] ns ++ x) :
    rewrite [c] (some ns) key = x.tail := by
  rw [rewrite_of_starts hns ((occursIn_singleton c key).2 hc) ⟨x, hx.symm⟩, hx,
    ← length_dotted_singleton c ns, ← List.drop_drop, List.drop_left, List.drop_one]

theorem rewrite_eq_dotted_iff : rewrite [c] (some ns) key = dotted [c] key ↔
    ns = [] ∨ c ∉ key ∨ ¬ dotted [c] ns <+: dotted [c] key := by
  by_cases hns : ns = []
  · subst hns
    simp [rewrite]
  by_cases hc : c ∈ key
  · by_cases hp : dotted [c] ns <+: dotted [c] key
    · -- The cut is never empty, since the namespace is not.
      obtain ⟨x, hx⟩ := hp
      have hlen : x.tail.length < (dotted [c] ns ++ x).length := by
        have := List.length_pos_iff.2 hns
        rw [List.length_tail, List.length_append, length_dotted_singleton]
        omega
      rw [rewrite_append hns hc hx.symm, ← hx]
      simp only [hns, hc, List.prefix_append, not_true_eq_false, or_self, iff_false]
      exact fun h => absurd (congrArg List.length h) (Nat.ne_of_lt hlen)
    · simp [rewrite_of_not_starts hns hp, hp]
  · have hocc : occursIn [c] key = false := by
      rw [← Bool.not_eq_true, occursIn_singleton]
      exact hc
    simp [rewrite_of_not_occursIn hns hocc, hc]

/-- **A key that is not under the namespace keeps all its segments just when** the namespace is
empty, the key has no delimiter, or the namespace is no start of the key even as a text. If it is,
then the rest of the segment in which it ends loses its first character. A key under the namespace
has the segments of the namespace and then those that are left of it. -/
theorem rewrite_segments (c : CodePoint) (ns key : Text) :
    (¬ Under (dotted [c] ns) (dotted [c] key) →
      (rewrite [c] (some ns) key = dotted [c] key ↔
        ns = [] ∨ c ∉ key ∨ ¬ dotted [c] ns <+: dotted [c] key) ∧
      (ns ≠ [] → c ∈ key → ∀ x, dotted [c] key = dotted [c] ns ++ x →
        x.head? ≠ some (cp '.') ∧ rewrite [c] (some ns) key = x.tail)) ∧
    (Under (dotted [c] ns) (dotted [c] key) → ns ≠ [] → c ∈ key →
      splitOn dot (dotted [c] key) =
        splitOn dot (dotted [c] ns) ++ splitOn dot (rewrite [c] (some ns) key)) := by
  refine ⟨fun h => ⟨rewrite_eq_dotted_iff, fun hns hc x hx => ⟨fun hdot => h ?_, ?_⟩⟩,
    fun h hns hc => ?_⟩
  · obtain ⟨r, rfl⟩ := List.head?_eq_some_iff.1 hdot
    exact under_iff.2 ⟨r, by rw [hx, List.append_assoc]; rfl⟩
  · exact rewrite_append hns hc hx
  · obtain ⟨r, hr⟩ := under_iff.1 h
    have hkey : dotted [c] key = dotted [c] ns ++ (dot ++ r) := by rw [← hr, List.append_assoc]
    rw [rewrite_append hns hc hkey, ← hr]
    exact splitOn_append (by decide) r (cutAfter_singleton (cp '.') _)

/-- A namespace that ends inside a segment takes the next character of it. -/
theorem rewrite_insideSegment :
    ¬ Under (dotted dot (text "auth")) (dotted dot (text "authx.y")) ∧
      dotted dot (text "authx.y") = text "authx.y" ∧
      rewrite dot (some (text "auth")) (text "authx.y") = text ".y" := by
  rw [under_iff]
  decide

/-- A key of other segments is left as it is. -/
theorem rewrite_segments_other :
    rewrite dot (some (text "common")) (text "auth.login") = dotted dot (text "auth.login") :=
  have h : ¬ Under (dotted dot (text "common")) (dotted dot (text "auth.login")) := by
    rw [under_iff]
    decide
  ((rewrite_segments (cp '.') _ _).1 h).1.2 (.inr (.inr (by decide)))

end Foreign

end KeyTrace.KeyPath
