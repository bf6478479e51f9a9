/-
Paths that hang from the root: how they are written and read, and where their parts lead.

Parts lead from a directory up some times and then down by names (`route`). To walk them
behind the parts of a directory is to leave that many of its last names behind and to add
the names.
-/
import KeyTrace.Path
import KeyTrace.Proofs.Text.Pieces
import Mathlib.Data.List.Infix

namespace KeyTrace.Path

/-- Something stands between two slashes that is kept as a part. -/
structure Proper (part : Text) : Prop where
  isPart : isPart part = true
  slash : slash ∉ part

/-- A path as it is read from a text. -/
def WellFormed (p : Path) : Prop := ∀ part ∈ p.parts, Proper part

variable {a : Anchor} {p q : Path} {part s : Text} {parts : List Text}

theorem wellFormed_ofText (t : Text) : WellFormed (ofText t) := by
  intro part h
  obtain ⟨hm, hp⟩ := List.mem_filter.1 h
  exact ⟨hp, Text.not_mem_of_mem_splitOn hm⟩

section Written

theorem toText_of_anchored (ha : a ≠ .here) (parts : List Text) :
    toText ⟨a, parts⟩ = Anchor.text a ++ Text.join [slash] parts := if_neg fun h => ha h.1

/-- No slash is at the start of parts that are joined. -/
theorem takeWhile_join (hne : parts ≠ []) (h : WellFormed ⟨a, parts⟩) :
    (Text.join [slash] parts).takeWhile (· == slash) = [] := by
  obtain ⟨part, parts, rfl⟩ := List.exists_cons_of_ne_nil hne
  obtain ⟨hpart, hslash⟩ := h part List.mem_cons_self
  have hnil : part ≠ [] := by
    rintro rfl
    cases hpart
  obtain ⟨c, rest, rfl⟩ := List.exists_cons_of_ne_nil hnil
  have hc : ¬ (c == slash) = true := by
    rw [beq_iff_eq]
    rintro rfl
    exact hslash List.mem_cons_self
  cases parts with
  | nil => exact List.takeWhile_cons_of_neg hc
  | cons next parts => exact List.takeWhile_cons_of_neg hc

theorem anchorOf_append (ha : a ≠ .here) {t : Text} (ht : t.takeWhile (· == slash) = []) :
    anchorOf (Anchor.text a ++ t) = a := by
  have hall : ∀ c ∈ Anchor.text a, (c == slash) = true := by cases a <;> decide
  rw [anchorOf, List.takeWhile_append_of_pos hall, ht, List.append_nil]
  cases a with
  | here => exact absurd rfl ha
  | root | doubleRoot => rfl

theorem filter_splitOn_append (t : Text) : (Text.splitOn [slash] (Anchor.text a ++ t)).filter isPart =
    (Text.splitOn [slash] t).filter isPart := by
  have hslash (t : Text) : (Text.splitOn [slash] (slash :: t)).filter isPart =
      (Text.splitOn [slash] t).filter isPart := by
    have h := Text.splitOn_append_left (List.cons_ne_nil slash []) t
    rw [List.singleton_append] at h
    rw [h]
    rfl
  cases a with
  | here => rfl
  | root => exact hslash t
  | doubleRoot => exact (hslash (slash :: t)).trans (hslash t)

/-- A path that hangs from the root is read as it is written. -/
theorem ofText_toText (ha : a ≠ .here) (hne : parts ≠ []) (h : WellFormed ⟨a, parts⟩) :
    ofText (toText ⟨a, parts⟩) = ⟨a, parts⟩ := by
  rw [toText_of_anchored ha, ofText, anchorOf_append ha (takeWhile_join hne h), filter_splitOn_append,
    Text.splitOn_join hne fun part hp => (h part hp).slash,
    List.filter_eq_self.2 fun part hp => (h part hp).isPart]

/-- What is added behind a path is added to its last part. -/
theorem toText_append_last (ha : a ≠ .here) (parts : List Text) (part s : Text) :
    toText ⟨a, parts ++ [part]⟩ ++ s = toText ⟨a, parts ++ [part ++ s]⟩ := by
  rw [toText_of_anchored ha, toText_of_anchored ha, List.append_assoc]
  congr 1
  cases parts with
  | nil => rfl
  | cons first parts =>
    rw [Text.join_append (List.cons_ne_nil part []) (List.cons_ne_nil first parts),
      Text.join_append (List.cons_ne_nil _ []) (List.cons_ne_nil first parts), List.append_assoc]
    rfl

/-- A slash and a name behind a path are a further part. -/
theorem toText_append_slash (ha : a ≠ .here) (hne : parts ≠ []) (name : Text) :
    toText ⟨a, parts⟩ ++ slash :: name = toText ⟨a, parts ++ [name]⟩ := by
  rw [toText_of_anchored ha, toText_of_anchored ha, Text.join_append (List.cons_ne_nil name []) hne,
    List.append_assoc, List.append_assoc]
  rfl

end Written

section Routes

/-- Where parts lead: up so many times, and then down by names, the last of them first. -/
structure Route where
  ups : Nat
  names : List Text

/-- Goes one part on. -/
def Route.walk (r : Route) (part : Text) : Route :=
  if part = upPart then
    match r.names with
    | [] => ⟨r.ups + 1, []⟩
    | _ :: names => ⟨r.ups, names⟩
  else ⟨r.ups, part :: r.names⟩

/-- Where parts lead. -/
def route (parts : List Text) : Route := parts.foldl Route.walk ⟨0, []⟩

/-- The parts never lead above where they start: no initial stretch of them has more ways up than
names. -/
def Stays (parts : List Text) : Prop :=
  ∀ way, way <+: parts → way.count upPart ≤ way.countP (· != upPart)

instance (parts : List Text) : Decidable (Stays parts) :=
  decidable_of_iff (∀ way ∈ parts.inits, way.count upPart ≤ way.countP (· != upPart))
    (by simp only [List.mem_inits, Stays])

theorem route_append_singleton (parts : List Text) (part : Text) :
    route (parts ++ [part]) = (route parts).walk part := by
  rw [route, List.foldl_append]
  rfl

theorem Route.walk_of_ne (r : Route) (h : part ≠ upPart) : r.walk part = ⟨r.ups, part :: r.names⟩ :=
  if_neg h

theorem step_route (r : Route) (behind : List Text) (part : Text) :
    step (r.names ++ behind.drop r.ups) part =
      (r.walk part).names ++ behind.drop (r.walk part).ups := by
  unfold step Route.walk
  split
  · cases r.names with
    | nil => exact List.tail_drop
    | cons name names => rfl
  · rfl

/-- To walk parts is to leave as many parts behind as they lead up, and to add their names. -/
theorem foldl_step (behind : List Text) (parts : List Text) :
    parts.foldl step behind = (route parts).names ++ behind.drop (route parts).ups := by
  induction parts using List.reverseRecOn with
  | nil => rfl
  | append_singleton parts part ih =>
    rw [List.foldl_append, ih, route_append_singleton]
    exact step_route (route parts) behind part

/-- What a walk leaves is no way up. -/
theorem mem_foldl_step {behind parts : List Text} (h : part ∈ parts.foldl step behind) :
    part ∈ behind ∨ part ∈ parts ∧ part ≠ upPart := by
  induction parts using List.reverseRecOn with
  | nil => exact .inl h
  | append_singleton parts last ih =>
    have hmore (h : part ∈ parts.foldl step behind) :
        part ∈ behind ∨ part ∈ parts ++ [last] ∧ part ≠ upPart :=
      (ih h).imp_right fun ⟨hm, hne⟩ => ⟨List.mem_append_left [last] hm, hne⟩
    rw [List.foldl_append, List.foldl_cons, List.foldl_nil, step] at h
    split at h
    · exact hmore (List.mem_of_mem_tail h)
    · next hlast =>
      rcases List.mem_cons.1 h with rfl | h
      · exact .inr ⟨List.mem_append_right parts List.mem_cons_self, hlast⟩
      · exact hmore h

theorem foldl_step_of_names : ∀ {parts behind : List Text}, (∀ part ∈ parts, part ≠ upPart) →
    parts.foldl step behind = parts.reverse ++ behind
  | [], _, _ => rfl
  | part :: parts, behind, h => by
    rw [List.foldl_cons, step, if_neg (h part List.mem_cons_self),
      foldl_step_of_names fun p hp => h p (List.mem_cons_of_mem part hp), List.reverse_cons,
      List.append_assoc, List.singleton_append]

theorem Stays.of_append {parts more : List Text} (h : Stays (parts ++ more)) : Stays parts :=
  fun _ hway => h _ (hway.trans (List.prefix_append parts more))

theorem count_name (hpart : part ≠ upPart) (parts : List Text) :
    (part :: parts).count upPart = parts.count upPart ∧
      (part :: parts).countP (· != upPart) = parts.countP (· != upPart) + 1 :=
  ⟨List.count_cons_of_ne hpart, List.countP_cons_of_pos (bne_iff_ne.2 hpart)⟩

theorem Stays.cons_name {parts : List Text} (h : Stays parts) (hpart : part ≠ upPart) :
    Stays (part :: parts) := by
  intro way hway
  obtain rfl | ⟨way, rfl, hstart⟩ := List.prefix_cons_iff.1 hway
  · exact Nat.le_refl 0
  · obtain ⟨hups, hnames⟩ := count_name hpart way
    have := h way hstart
    omega

/-- Parts that stay lead up nowhere, and to as many names as there are more names than ways up. -/
theorem Stays.route_spec {parts : List Text} (h : Stays parts) : (route parts).ups = 0 ∧
    (route parts).names.length + parts.count upPart = parts.countP (· != upPart) := by
  induction parts using List.reverseRecOn with
  | nil => exact ⟨rfl, rfl⟩
  | append_singleton parts part ih =>
    obtain ⟨hups, hlen⟩ := ih h.of_append
    rw [route_append_singleton, List.count_append, List.countP_append]
    by_cases hpart : part = upPart
    · subst hpart
      have hle := h _ List.prefix_rfl
      have hcount : [upPart].count upPart = 1 ∧ [upPart].countP (· != upPart) = 0 := by decide
      rw [List.count_append, List.countP_append, hcount.1, hcount.2] at hle
      -- there is a name to leave, since there are more names than ways up before
      obtain ⟨name, names, hnames⟩ := List.exists_cons_of_length_pos
        (show 0 < (route parts).names.length by omega)
      rw [hnames, List.length_cons] at hlen
      rw [Route.walk, if_pos rfl, hnames, hcount.1, hcount.2]
      exact ⟨hups, by simpa only [Nat.add_zero, Nat.add_assoc, Nat.add_comm 1] using hlen⟩
    · obtain ⟨hcount, hnames⟩ := count_name hpart []
      rw [Route.walk_of_ne _ hpart, hcount, hnames, List.length_cons]
      exact ⟨hups, by simp only [List.count_nil, List.countP_nil]; omega⟩

end Routes

end KeyTrace.Path
