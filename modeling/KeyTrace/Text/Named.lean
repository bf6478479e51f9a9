/-
Values under names, in the order in which the names first came up. Setting a name
again keeps its place.
-/
import KeyTrace.Text

namespace KeyTrace

/-- Values under names. -/
abbrev Named (β : Type) := List (Text × β)

namespace Named

variable {β : Type}

/-- The value under a name. -/
def get? (m : Named β) (name : Text) : Option β := m.lookup name

/-- Sets the value under a name. -/
def set (name : Text) (b : β) : Named β → Named β
  | [] => [(name, b)]
  | (n, b') :: rest => if n = name then (n, b) :: rest else (n, b') :: set name b rest

/-- Sets every value of another collection, in order. -/
def setAll (m : Named β) (more : Named β) : Named β := more.foldl (fun m p => set p.1 p.2 m) m

theorem get?_nil (name : Text) : get? ([] : Named β) name = none := rfl

/-- Setting a name changes the value under that name, and nothing else. -/
theorem get?_set (m : Named β) (name n : Text) (b : β) :
    get? (set name b m) n = if n = name then some b else get? m n := by
  induction m with
  | nil =>
    by_cases h : n = name
    · subst h; simp [set, get?]
    · have : (n == name) = false := by simpa using h
      simp [set, get?, List.lookup_cons, h, this]
  | cons p m ih =>
    obtain ⟨k, b'⟩ := p
    simp only [get?] at ih ⊢
    by_cases hk : k = name
    · subst hk
      by_cases h : n = k
      · subst h; simp [set]
      · have : (n == k) = false := by simpa using h
        simp [set, List.lookup_cons, h, this]
    · by_cases h : n = k
      · subst h
        simp [set, hk]
      · have : (n == k) = false := by simpa using h
        simp [set, hk, List.lookup_cons, this, ih]

end Named
end KeyTrace
