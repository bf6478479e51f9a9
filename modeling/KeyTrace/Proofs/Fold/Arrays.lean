/-
What an array literal folds to: the strings of its elements if all of them fold to
strings, their records if all of them are object literals, and nothing known
otherwise (`constant_array`).

Elements are read one by one up to the first of another sort. Both sorts are read in
the same way, so the loop is gone through once, for a `Sort` of elements.
-/
import KeyTrace.Proofs.Fold.Refinement
import KeyTrace.Proofs.Fold.Shadowing
import KeyTrace.Proofs.Pointwise
import Mathlib.Data.List.Perm.Basic

namespace KeyTrace

/-- A list of strings or of records is not empty. -/
def Folded.HasElements : Folded → Prop
  | .strings l => l ≠ []
  | .records l => l ≠ []
  | _ => True

namespace Fold

/-- A sort of array elements: an element of the sort, and what has been read of an array if all of
it is of the sort. -/
structure ElementSort (α : Type) where
  one : α → Element
  gather : List α → Gathered
  add_one : ∀ l a, (gather l).add (one a) = some (gather (l ++ [a]))
  add_other : ∀ l e, (∀ a, e ≠ one a) → (gather l).add e = none
  start : ∀ a, Gathered.nothing.add (one a) = some (gather [a])

namespace ElementSort

def strings : ElementSort Text where
  one := .string
  gather := .strings
  add_one _ _ := rfl
  add_other _ e he := by
    cases e with
    | string s => exact absurd rfl (he s)
    | record | neither => rfl
  start _ := rfl

def records : ElementSort Record where
  one := .record
  gather := .records
  add_one _ _ := rfl
  add_other _ e he := by
    cases e with
    | record r => exact absurd rfl (he r)
    | string | neither => rfl
  start _ := rfl

end ElementSort

section Loop

variable {α : Type} {S : ElementSort α} {element : Node → Traced Element} {v : Folded}

/-- Elements that are all of a sort come to a value of the sort. -/
theorem foldElements_gather : ∀ {l : List Node} {as : List α} (soFar : List α),
    List.Forall₂ (fun c a => (element c).outcome = .ok (S.one a)) l as →
    (foldElements element (S.gather soFar) l).outcome = .ok (S.gather (soFar ++ as)).value
  | [], _, soFar, h => by
    cases h
    rw [List.append_nil]
    rfl
  | c :: l, _, soFar, h => by
    cases h with
    | @cons _ a _ as hc h =>
      have ih := foldElements_gather (soFar ++ [a]) h
      rw [List.append_assoc] at ih
      exact Traced.bind_ok_iff.2 ⟨S.one a, hc, by rw [S.add_one]; exact ih⟩

/-- Reading on in a sort, all elements are of the sort, or one is not and nothing is known. -/
theorem foldElements_gather_cases : ∀ {l : List Node} {soFar : List α},
    (foldElements element (S.gather soFar) l).outcome = .ok v →
    (∃ as, List.Forall₂ (fun c a => (element c).outcome = .ok (S.one a)) l as ∧
        v = (S.gather (soFar ++ as)).value) ∨
      v = .dynamic ∧ ∃ c ∈ l, ∃ e, (element c).outcome = .ok e ∧ ∀ a, e ≠ S.one a
  | [], soFar, h => by
    cases h
    exact .inl ⟨[], .nil, by rw [List.append_nil]⟩
  | c :: l, soFar, h => by
    obtain ⟨e, he, h⟩ := Traced.bind_ok_iff.1 h
    by_cases hone : ∃ a, e = S.one a
    · obtain ⟨a, rfl⟩ := hone
      rw [S.add_one] at h
      rcases foldElements_gather_cases h with ⟨as, has, hv⟩ | ⟨hv, c', hc', hother⟩
      · exact .inl ⟨a :: as, .cons he has, by rw [hv, List.append_assoc]; rfl⟩
      · exact .inr ⟨hv, c', List.mem_cons_of_mem c hc', hother⟩
    · have hother : ∀ a, e ≠ S.one a := fun a ha => hone ⟨a, ha⟩
      rw [S.add_other soFar e hother] at h
      cases h
      exact .inr ⟨rfl, c, List.mem_cons_self, e, he, hother⟩

/-- The array is of the sort. -/
theorem foldElements_of_all {l : List Node} {as : List α} (hl : l ≠ [])
    (h : List.Forall₂ (fun c a => (element c).outcome = .ok (S.one a)) l as) :
    (foldElements element .nothing l).outcome = .ok (S.gather as).value := by
  cases h with
  | nil => exact absurd rfl hl
  | @cons c a l as hc h =>
    exact Traced.bind_ok_iff.2 ⟨S.one a, hc, by rw [S.start]; exact foldElements_gather [a] h⟩

/-- What the elements of an array are, by what the array comes to. -/
inductive Elements (element : Node → Traced Element) (l : List Node) : Folded → Prop
  | strings {vs : List Text} : l ≠ [] →
      List.Forall₂ (fun c s => (element c).outcome = .ok (.string s)) l vs →
      Elements element l (.strings vs)
  | records {rs : List Record} : l ≠ [] →
      List.Forall₂ (fun c r => (element c).outcome = .ok (.record r)) l rs →
      Elements element l (.records rs)
  | dynamic : (l ≠ [] → (∃ c ∈ l, ∃ e, (element c).outcome = .ok e ∧ ∀ s, e ≠ .string s) ∧
      ∃ c ∈ l, ∃ e, (element c).outcome = .ok e ∧ ∀ r, e ≠ .record r) →
      Elements element l .dynamic

theorem foldElements_elements {l : List Node}
    (h : (foldElements element .nothing l).outcome = .ok v) : Elements element l v := by
  cases l with
  | nil =>
    cases h
    exact .dynamic fun hl => absurd rfl hl
  | cons c l =>
    obtain ⟨e, he, h⟩ := Traced.bind_ok_iff.1 h
    cases e with
    | string s =>
      rcases foldElements_gather_cases (S := .strings) h with ⟨vs, hvs, rfl⟩ | ⟨rfl, c', hc', hother⟩
      · exact .strings (by simp) (.cons he hvs)
      · exact .dynamic fun _ => ⟨⟨c', List.mem_cons_of_mem c hc', hother⟩,
          c, List.mem_cons_self, _, he, nofun⟩
    | record r =>
      rcases foldElements_gather_cases (S := .records) h with ⟨rs, hrs, rfl⟩ | ⟨rfl, c', hc', hother⟩
      · exact .records (by simp) (.cons he hrs)
      · exact .dynamic fun _ => ⟨⟨c, List.mem_cons_self, _, he, nofun⟩,
          c', List.mem_cons_of_mem c hc', hother⟩
    | neither =>
      cases h
      exact .dynamic fun _ => ⟨⟨c, List.mem_cons_self, _, he, nofun⟩,
        c, List.mem_cons_self, _, he, nofun⟩

end Loop

section Elements

variable {ctx : Context} {b : Nat} {c : Node}

/-- An element of an array is an object literal under its wrappers. -/
def IsObject (c : Node) : Prop := shapeOf c.unwrap? = .object

theorem isObject_iff : IsObject c ↔ ∃ o, c.unwrap? = some o ∧ o.shape = .object := by
  unfold IsObject shapeOf
  cases c.unwrap? with
  | none => simp
  | some o => simp

theorem foldElement_record_iff {r : Record} :
    (foldElement ctx.source (folder b ctx) c).outcome = .ok (.record r) ↔
      ∃ o, c.unwrap? = some o ∧ o.shape = .object ∧
        (foldRecord ctx.source (folder b ctx) o).outcome = .ok r := by
  constructor
  · intro h
    obtain ⟨o, hu, ho⟩ := isObject_of_foldElement h
    rw [foldElement_object (folder_object b ctx hu ho) hu ho] at h
    obtain ⟨r', hr', h⟩ := Traced.bind_ok_iff.1 h
    cases h
    exact ⟨o, hu, ho, hr'⟩
  · rintro ⟨o, hu, ho, hr⟩
    rw [foldElement_object (folder_object b ctx hu ho) hu ho]
    exact Traced.bind_ok_iff.2 ⟨r, hr, rfl⟩

theorem isRecord_of_isObject {e : Element} (h : IsObject c)
    (he : (foldElement ctx.source (folder b ctx) c).outcome = .ok e) : ∃ r, e = .record r := by
  obtain ⟨o, hu, ho⟩ := isObject_iff.1 h
  rw [foldElement_object (folder_object b ctx hu ho) hu ho] at he
  obtain ⟨r, -, he⟩ := Traced.bind_ok_iff.1 he
  exact ⟨r, (Except.ok.inj he).symm⟩

end Elements

section Nonempty

variable {ctx : Context}

theorem Elements.hasElements {element : Node → Traced Element} {l : List Node} {v : Folded}
    (h : Elements element l v) : v.HasElements := by
  cases h with
  | strings hl h =>
    rintro rfl
    exact hl (List.forall₂_nil_right_iff.1 h)
  | records hl h =>
    rintro rfl
    exact hl (List.forall₂_nil_right_iff.1 h)
  | dynamic => trivial

theorem foldName_hasElements {c : Context → Option Node → Traced Folded} {k : Node} {v : Folded}
    (hc : ∀ ctx m v, (c ctx m).outcome = .ok v → v.HasElements)
    (h : (foldName c ctx k).outcome = .ok v) : v.HasElements := by
  rcases foldName_cases ctx k with ⟨ctx₁, m, -, he⟩ | ⟨o, ho, he⟩
  · exact hc ctx₁ m v ((he c).symm.trans h)
  · rw [ho.dynamic v ((he c).symm.trans h)]
    trivial

theorem foldShape_hasElements {f : Context → Folder} {a : Node} {v : Folded}
    (hf : ∀ ctx m v, ((f ctx).constant m).outcome = .ok v → v.HasElements)
    (h : (foldShape ctx f a).outcome = .ok v) : v.HasElements := by
  cases foldShape_ok_iff.1 h with
  | array _ h => exact (foldElements_elements h).hasElements
  | identifier _ h => exact foldName_hasElements hf h
  | @template o => cases o <;> trivial
  | string | plus | left | right | other => trivial

/-- Whatever is folded with any budget, a list is not empty. -/
theorem folder_hasElements : ∀ (b : Nat) (ctx : Context) (n : Option Node) (v : Folded),
    ((folder b ctx).constant n).outcome = .ok v → v.HasElements
  | 0, _, _, _, h => by
    cases h
    trivial
  | b + 1, ctx, n, v, h => by
    simp only [folder, Folder.next] at h
    cases ha : unwrapOf n with
    | none =>
      rw [ha] at h
      cases h
      trivial
    | some a =>
      rw [ha] at h
      exact foldShape_hasElements (folder_hasElements b) h

end Nonempty

section Array

variable {ctx : Context} {depth : Int} {n : Option Node} {a : Node}

/-- What an element of an array literal is at a depth. -/
def elementAt (ctx : Context) (depth : Int) (c : Node) : Traced Element :=
  foldElement ctx.source (folder (budget depth) ctx) c

/-- An element of an array is an object literal, which has this record at a depth. -/
def HasRecord (ctx : Context) (depth : Int) (c : Node) (r : Record) : Prop :=
  ∃ o, c.unwrap? = some o ∧ o.shape = .object ∧
    (foldRecord ctx.source (folder (budget depth) ctx) o).outcome = .ok r

theorem constant_of_array (hd : depth ≤ maxDepth) (ha : unwrapOf n = some a)
    (hs : a.shape = .array) :
    constant ctx depth n = foldElements (elementAt ctx (depth + 1)) .nothing a.children := by
  rw [constant, budget_of_le hd]
  simp only [folder, Folder.next, ha, foldShape, hs]
  rfl

theorem elements_of_array (hd : depth ≤ maxDepth) (ha : unwrapOf n = some a)
    (hs : a.shape = .array) {v : Folded} (h : (constant ctx depth n).outcome = .ok v) :
    Elements (elementAt ctx (depth + 1)) a.children v := by
  rw [constant_of_array hd ha hs] at h
  exact foldElements_elements h

theorem constant_strings_iff (hd : depth ≤ maxDepth) (ha : unwrapOf n = some a)
    (hs : a.shape = .array) {vs : List Text} :
    (constant ctx depth n).outcome = .ok (.strings vs) ↔ a.children ≠ [] ∧
      List.Forall₂ (fun e s => (constant ctx (depth + 1) (some e)).outcome = .ok (.string s))
        a.children vs := by
  constructor
  · intro h
    cases elements_of_array hd ha hs h with
    | strings hl h => exact ⟨hl, h.imp fun _ _ => foldElement_string_iff.1⟩
  · rintro ⟨hl, h⟩
    rw [constant_of_array hd ha hs]
    exact foldElements_of_all (S := .strings) hl (h.imp fun _ _ => foldElement_string_iff.2)

theorem constant_records_iff (hd : depth ≤ maxDepth) (ha : unwrapOf n = some a)
    (hs : a.shape = .array) {rs : List Record} :
    (constant ctx depth n).outcome = .ok (.records rs) ↔
      a.children ≠ [] ∧ List.Forall₂ (HasRecord ctx (depth + 1)) a.children rs := by
  constructor
  · intro h
    cases elements_of_array hd ha hs h with
    | records hl h => exact ⟨hl, h.imp fun _ _ => foldElement_record_iff.1⟩
  · rintro ⟨hl, h⟩
    rw [constant_of_array hd ha hs]
    exact foldElements_of_all (S := .records) hl (h.imp fun _ _ => foldElement_record_iff.2)

/-- Object literals come to records. -/
theorem exists_records (hd : depth ≤ maxDepth) (ha : unwrapOf n = some a) (hs : a.shape = .array)
    (hl : a.children ≠ []) (hobject : ∀ e ∈ a.children, IsObject e) {v : Folded}
    (h : (constant ctx depth n).outcome = .ok v) : ∃ rs, v = .records rs := by
  have hrecord : ∀ c ∈ a.children, ∀ e, (elementAt ctx (depth + 1) c).outcome = .ok e →
      ∃ r, e = .record r := fun c hc e he => isRecord_of_isObject (hobject c hc) he
  cases elements_of_array hd ha hs h with
  | records => exact ⟨_, rfl⟩
  | strings _ hvs =>
    obtain ⟨c, hc⟩ := List.exists_mem_of_ne_nil _ hl
    obtain ⟨s, -, hcs⟩ := Pointwise.exists_of_mem_left hvs hc
    obtain ⟨r, hr⟩ := hrecord c hc _ hcs
    cases hr
  | dynamic hother =>
    obtain ⟨-, c, hc, e, he, hne⟩ := hother hl
    obtain ⟨r, hr⟩ := hrecord c hc e he
    exact absurd hr (hne r)

end Array

section Order

variable {ctx : Context} {depth : Int} {n n' : Option Node} {a a' : Node}

/-- The values of two arrays are of one sort, with the same elements in some order. -/
inductive Reordered : Folded → Folded → Prop
  | strings {l l' : List Text} : l.Perm l' → Reordered (.strings l) (.strings l')
  | records {l l' : List Record} : l.Perm l' → Reordered (.records l) (.records l')
  | dynamic : Reordered .dynamic .dynamic

theorem constant_strings_perm (hd : depth ≤ maxDepth) (ha : unwrapOf n = some a)
    (hs : a.shape = .array) (ha' : unwrapOf n' = some a') (hs' : a'.shape = .array)
    (hp : a.children.Perm a'.children) {vs : List Text}
    (h : (constant ctx depth n).outcome = .ok (.strings vs)) :
    ∃ vs', vs.Perm vs' ∧ (constant ctx depth n').outcome = .ok (.strings vs') := by
  obtain ⟨hl, hvs⟩ := (constant_strings_iff hd ha hs).1 h
  obtain ⟨vs', hvs', hperm⟩ := List.perm_comp_forall₂ hp.symm hvs
  refine ⟨vs', hperm.symm, (constant_strings_iff hd ha' hs').2 ⟨?_, hvs'⟩⟩
  exact fun hnil => hl (List.perm_nil.1 (hnil ▸ hp))

theorem constant_records_perm (hd : depth ≤ maxDepth) (ha : unwrapOf n = some a)
    (hs : a.shape = .array) (ha' : unwrapOf n' = some a') (hs' : a'.shape = .array)
    (hp : a.children.Perm a'.children) {rs : List Record}
    (h : (constant ctx depth n).outcome = .ok (.records rs)) :
    ∃ rs', rs.Perm rs' ∧ (constant ctx depth n').outcome = .ok (.records rs') := by
  obtain ⟨hl, hrs⟩ := (constant_records_iff hd ha hs).1 h
  obtain ⟨rs', hrs', hperm⟩ := List.perm_comp_forall₂ hp.symm hrs
  refine ⟨rs', hperm.symm, (constant_records_iff hd ha' hs').2 ⟨?_, hrs'⟩⟩
  exact fun hnil => hl (List.perm_nil.1 (hnil ▸ hp))

/-- The order of the elements of an array does not matter for what sort it is of. -/
theorem constant_reordered (hd : depth ≤ maxDepth) (ha : unwrapOf n = some a)
    (hs : a.shape = .array) (ha' : unwrapOf n' = some a') (hs' : a'.shape = .array)
    (hp : a.children.Perm a'.children) {v v' : Folded}
    (h : (constant ctx depth n).outcome = .ok v) (h' : (constant ctx depth n').outcome = .ok v') :
    Reordered v v' := by
  cases elements_of_array hd ha hs h with
  | strings =>
    obtain ⟨vs', hperm, hvs'⟩ := constant_strings_perm hd ha hs ha' hs' hp h
    cases hvs'.symm.trans h'
    exact .strings hperm
  | records =>
    obtain ⟨rs', hperm, hrs'⟩ := constant_records_perm hd ha hs ha' hs' hp h
    cases hrs'.symm.trans h'
    exact .records hperm
  | dynamic =>
    cases elements_of_array hd ha' hs' h' with
    | strings =>
      obtain ⟨vs, -, hvs⟩ := constant_strings_perm hd ha' hs' ha hs hp.symm h'
      cases hvs.symm.trans h
    | records =>
      obtain ⟨rs, -, hrs⟩ := constant_records_perm hd ha' hs' ha hs hp.symm h'
      cases hrs.symm.trans h
    | dynamic => exact .dynamic

end Order

/-- **An array literal folds to strings if all its elements do, to records if all of them are object
literals, and else to nothing known**, if it has elements at all; it has a result whenever the
importer answers and the literals it comes to have values. So the order of the elements does not
matter for the sort, and whatever folds to anything folds to one of a string, a list of strings and
a list of records, with at least one element. -/
theorem constant_array {ctx : Context} {depth : Int} (hd : depth ≤ maxDepth) {n : Option Node}
    {a : Node} (ha : unwrapOf n = some a) (hs : a.shape = .array) :
    (∀ vs, (constant ctx depth n).outcome = .ok (.strings vs) ↔ a.children ≠ [] ∧
      List.Forall₂ (fun e s => (constant ctx (depth + 1) (some e)).outcome = .ok (.string s))
        a.children vs) ∧
    (∀ rs, (constant ctx depth n).outcome = .ok (.records rs) ↔ a.children ≠ [] ∧
      List.Forall₂ (HasRecord ctx (depth + 1)) a.children rs) ∧
    (∀ v, (constant ctx depth n).outcome = .ok v →
      ((∃ rs, v = .records rs) ↔ a.children ≠ [] ∧ ∀ e ∈ a.children, IsObject e) ∧
      (v = .dynamic ∨ (∃ vs, v = .strings vs) ∨ ∃ rs, v = .records rs)) ∧
    (Answers ctx.importer → Cooks ctx n → ∃ v, (constant ctx depth n).outcome = .ok v) ∧
    (∀ n' a', unwrapOf n' = some a' → a'.shape = .array → a.children.Perm a'.children →
      ∀ v v', (constant ctx depth n).outcome = .ok v → (constant ctx depth n').outcome = .ok v' →
        Reordered v v') ∧
    (∀ ctx depth n v, (constant ctx depth n).outcome = .ok v → v ≠ .dynamic →
      v.HasElements ∧
        v.string?.isSome.toNat + v.strings?.isSome.toNat + v.records?.isSome.toNat = 1) := by
  refine ⟨fun vs => constant_strings_iff hd ha hs, fun rs => constant_records_iff hd ha hs,
    fun v h => ⟨⟨?_, fun ⟨hl, hobject⟩ => exists_records hd ha hs hl hobject h⟩, ?_⟩,
    (folder_returns (budget depth)).constant ctx n,
    fun n' a' ha' hs' hp v v' => constant_reordered hd ha hs ha' hs' hp,
    fun ctx depth n v h hv => ⟨folder_hasElements (budget depth) ctx n v h, ?_⟩⟩
  · rintro ⟨rs, rfl⟩
    obtain ⟨hl, hrs⟩ := (constant_records_iff hd ha hs).1 h
    refine ⟨hl, fun e he => ?_⟩
    obtain ⟨r, -, o, hu, ho, -⟩ := Pointwise.exists_of_mem_left hrs he
    exact isObject_iff.2 ⟨o, hu, ho⟩
  · cases elements_of_array hd ha hs h with
    | strings => exact .inr (.inl ⟨_, rfl⟩)
    | records => exact .inr (.inr ⟨_, rfl⟩)
    | dynamic => exact .inl rfl
  · cases v with
    | dynamic => exact absurd rfl hv
    | string | strings | records => rfl

section Example

/-- The text of `['x','y']`. -/
def twoStrings : Source := ⟨(Utf8.encode (text "['x','y']")).toArray⟩

/-- The array literal of `twoStrings`. -/
def twoStringsArray : Node :=
  .mk .none .array ⟨0, 9⟩ [.mk .none .string ⟨1, 4⟩ [], .mk .none .string ⟨5, 8⟩ []]

/-- With a step to spare `twoStrings` folds to its strings, and with none to nothing known. -/
theorem constant_array_twoStrings :
    (constant (.alone twoStrings) 4 (some twoStringsArray)).outcome =
        .ok (.strings [text "x", text "y"]) ∧
      ¬ ∃ vs, (constant (.alone twoStrings) 5 (some twoStringsArray)).outcome =
        .ok (.strings vs) := by
  have hu : unwrapOf (some twoStringsArray) = some twoStringsArray := rfl
  refine ⟨((constant_array (by decide) hu rfl).1 _).2 ⟨by decide, .cons rfl (.cons rfl .nil)⟩, ?_⟩
  rintro ⟨vs, hvs⟩
  obtain ⟨-, hvs⟩ := ((constant_array (by decide) hu rfl).1 vs).1 hvs
  cases hvs with
  | cons hx _ => cases hx

end Example

end Fold
end KeyTrace
