/-
What the record of an object literal says of a property: the value of the last plain
property of the name that folds to a string. Quoted and computed keys, spreads, methods
and values that do not fold to strings are passed over, so that the record says what the
literal evaluates to as long as none of them comes after (`constant_record_iff`).
-/
import KeyTrace.Proofs.Fold.Arrays

namespace KeyTrace.Fold

section Survives

variable {α : Type} {P Q S : α → Prop} {a : α} {l : List α}

/-- An element with one property after which there is none with another. -/
def Survives (P Q : α → Prop) (l : List α) : Prop :=
  ∃ before a after, l = before ++ a :: after ∧ P a ∧ ∀ b ∈ after, ¬ Q b

theorem not_survives_nil : ¬ Survives P Q [] := by
  rintro ⟨before, a, after, h, -⟩
  simp at h

theorem survives_cons : Survives P Q (a :: l) ↔ (P a ∧ ∀ b ∈ l, ¬ Q b) ∨ Survives P Q l := by
  constructor
  · rintro ⟨before, b, after, h, hb, hafter⟩
    cases before with
    | nil =>
      cases h
      exact .inl ⟨hb, hafter⟩
    | cons c before =>
      cases h
      exact .inr ⟨before, b, after, rfl, hb, hafter⟩
  · rintro (⟨ha, hl⟩ | ⟨before, b, after, rfl, hb, hafter⟩)
    · exact ⟨[], a, l, rfl, ha, hl⟩
    · exact ⟨a :: before, b, after, rfl, hb, hafter⟩

theorem Survives.exists_mem (h : Survives P Q l) : ∃ a ∈ l, P a := by
  obtain ⟨before, a, after, rfl, ha, -⟩ := h
  exact ⟨a, by simp, ha⟩

theorem survives_of_mem (ha : a ∈ l) (hP : P a) (hQ : ∀ b ∈ l, ¬ Q b) : Survives P Q l := by
  obtain ⟨before, after, rfl⟩ := List.append_of_mem ha
  exact ⟨before, a, after, rfl, hP, fun b hb => hQ b (by simp [hb])⟩

/-- No `S` comes after a `P` just when no `Q`, which are some of them, comes after it and no `S`
that is no `Q` comes after the last `Q`. -/
theorem survives_iff (hPQ : ∀ a, P a → Q a) (hQS : ∀ a, Q a → S a) :
    Survives P S l ↔ Survives P Q l ∧ ¬ Survives (fun a => S a ∧ ¬ Q a) Q l := by
  induction l with
  | nil => simp [not_survives_nil]
  | cons a l ih =>
    rw [survives_cons, survives_cons, survives_cons, ih]
    constructor
    · rintro (⟨ha, hl⟩ | ⟨hQ, hS⟩)
      · refine ⟨.inl ⟨ha, fun b hb h => hl b hb (hQS b h)⟩, ?_⟩
        rintro (⟨⟨-, hn⟩, -⟩ | h)
        · exact hn (hPQ a ha)
        · obtain ⟨b, hb, hSb, -⟩ := h.exists_mem
          exact hl b hb hSb
      · refine ⟨.inr hQ, ?_⟩
        rintro (⟨-, hl⟩ | h)
        · obtain ⟨b, hb, hPb⟩ := hQ.exists_mem
          exact hl b hb (hPQ b hPb)
        · exact hS h
    · rintro ⟨⟨ha, hl⟩ | hQ, hS⟩
      · refine .inl ⟨ha, fun b hb hSb => hS (.inr ?_)⟩
        exact survives_of_mem hb ⟨hSb, hl b hb⟩ hl
      · exact .inr ⟨hQ, fun h => hS (.inr h)⟩

end Survives

section Properties

variable {source : Source} {f : Folder} {k v : Text}

/-- A plain property, a pair or a shorthand, of a name that folds to a string. -/
def IsString (source : Source) (f : Folder) (k v : Text) (p : Node) : Prop :=
  propertyName? source p = some k ∧ (propertyValue f p).outcome = .ok (.string v)

/-- A plain property of a name that folds to some string: what a record is made of. -/
def IsKept (source : Source) (f : Folder) (k : Text) (p : Node) : Prop :=
  ∃ v, IsString source f k v p

theorem foldProperty_get? {r r' : Record} {p : Node}
    (h : (foldProperty source f r p).outcome = .ok r') :
    Named.get? r' k = some v ↔
      IsString source f k v p ∨ Named.get? r k = some v ∧ ¬ IsKept source f k p := by
  rw [foldProperty_eq] at h
  unfold IsKept IsString
  cases hn : propertyName? source p with
  | none =>
    rw [hn] at h
    cases h
    simp
  | some name =>
    rw [hn] at h
    obtain ⟨w, hw, h⟩ := Traced.bind_ok_iff.1 h
    cases h
    rw [hw]
    cases w with
    | string s =>
      rw [keepString, Named.get?_set]
      by_cases hk : k = name
      · subst hk
        simp
      · have hk' : ¬ name = k := fun h => hk h.symm
        simp [hk, hk']
    | dynamic | strings | records => simp [keepString]

/-- Along the properties of a literal, the last one kept of a name decides. -/
theorem foldProperties_get? : ∀ {l : List Node} {r out : Record},
    (l.foldlM (foldProperty source f) r).outcome = .ok out →
    (Named.get? out k = some v ↔ Survives (IsString source f k v) (IsKept source f k) l ∨
      Named.get? r k = some v ∧ ∀ p ∈ l, ¬ IsKept source f k p)
  | [], r, out, h => by
    cases h
    simp [not_survives_nil]
  | p :: l, r, out, h => by
    rw [List.foldlM_cons] at h
    obtain ⟨r', hr', h⟩ := Traced.bind_ok_iff.1 h
    rw [foldProperties_get? h, foldProperty_get? hr', survives_cons, List.forall_mem_cons]
    tauto

end Properties

section Literal

variable {ctx : Context} {depth : Int} {o : Node} {k v : Text} {r : Record}

/-- A property of an object literal that sets a name: a plain one, or a pair whose key is quoted. -/
def SetsName (source : Source) (k : Text) (p : Node) : Prop :=
  propertyName? source p = some k ∨
    p.kind = .pair ∧ ∃ q, p.child? .key = some q ∧ q.kind = .string ∧
      Literal.stringValue source q = .ok k

/-- A property that may give a name another value: one that sets the name, or a spread. -/
def MaySet (source : Source) (k : Text) (p : Node) : Prop :=
  SetsName source k p ∨ p.kind = .spreadElement

/-- Evaluating an object literal gives a name a string: the last property that sets it is a plain
one that folds to the string, and no spread comes after. -/
def Gives (ctx : Context) (depth : Int) (o : Node) (k v : Text) : Prop :=
  Survives (IsString ctx.source (folder (budget depth) ctx) k v) (MaySet ctx.source k) o.children

/-- Of the plain properties of a name that fold to strings, the last one folds to this string. -/
def LastKept (ctx : Context) (depth : Int) (o : Node) (k v : Text) : Prop :=
  Survives (IsString ctx.source (folder (budget depth) ctx) k v)
    (IsKept ctx.source (folder (budget depth) ctx) k) o.children

/-- After all that is kept of a name there is a property that is passed over and may set it. -/
def Overridden (ctx : Context) (depth : Int) (o : Node) (k : Text) : Prop :=
  Survives
    (fun p => MaySet ctx.source k p ∧ ¬ IsKept ctx.source (folder (budget depth) ctx) k p)
    (IsKept ctx.source (folder (budget depth) ctx) k) o.children

theorem foldRecord_get?
    (h : (foldRecord ctx.source (folder (budget depth) ctx) o).outcome = .ok r) :
    Named.get? r k = some v ↔ LastKept ctx depth o k v := by
  rw [foldRecord] at h
  rw [foldProperties_get? h, Named.get?_nil]
  simp [LastKept]

theorem gives_iff : Gives ctx depth o k v ↔ LastKept ctx depth o k v ∧ ¬ Overridden ctx depth o k :=
  survives_iff (fun _ hp => ⟨v, hp⟩) fun _ ⟨_, hn, _⟩ => .inl (.inl hn)

end Literal

/-- **The record of an object literal has the last string of every name.** In an array literal that
folds to records, each element is an object literal; its record maps a name to a string just when,
of the plain properties of the name that fold to strings, the last one folds to this string. This
is what evaluating the literal gives the name just when no property that is passed over, but may set
the name, comes after what is kept of it. -/
theorem constant_record_iff {ctx : Context} {depth : Int} {n : Option Node} {a : Node}
    (ha : unwrapOf n = some a) (hs : a.shape = .array) {rs : List Record}
    (h : (constant ctx depth n).outcome = .ok (.records rs)) :
    List.Forall₂ (fun e r => ∃ o, e.unwrap? = some o ∧ o.shape = .object ∧ ∀ k v,
      (Named.get? r k = some v ↔ LastKept ctx (depth + 1) o k v) ∧
      (Gives ctx (depth + 1) o k v ↔
        Named.get? r k = some v ∧ ¬ Overridden ctx (depth + 1) o k)) a.children rs := by
  have hd : depth ≤ maxDepth := by
    refine Int.not_lt.1 fun hlt => ?_
    rw [constant, budget_of_lt hlt] at h
    cases h
  obtain ⟨-, hrs⟩ := (constant_records_iff hd ha hs).1 h
  refine hrs.imp ?_
  rintro e r ⟨o, hu, ho, hr⟩
  refine ⟨o, hu, ho, fun k v => ⟨foldRecord_get? hr, ?_⟩⟩
  rw [gives_iff, foldRecord_get? hr]

section Example

/-- A property of one letter for its name and a string of one letter, from a position on. -/
def plainProperty (i : Nat) : Node :=
  .mk .none .pair ⟨i, i + 5⟩
    [.mk .key .propertyIdentifier ⟨i, i + 1⟩ [], .mk .value .string ⟨i + 2, i + 5⟩ []]

/-- The same with quotes around the name. -/
def quotedProperty (i : Nat) : Node :=
  .mk .none .pair ⟨i, i + 7⟩
    [.mk .key .string ⟨i, i + 3⟩ [], .mk .value .string ⟨i + 4, i + 7⟩ []]

/-- The text of `[{a:'x',a:'y','b':'z'}]`. -/
def twicePlain : Source := ⟨(Utf8.encode (text "[\x7ba:'x',a:'y','b':'z'\x7d]")).toArray⟩

/-- The object literal of `twicePlain`. -/
def twicePlainObject : Node :=
  .mk .none .object ⟨1, 22⟩ [plainProperty 2, plainProperty 8, quotedProperty 14]

/-- The later `a` of `twicePlain` is what its record has, for no `a` comes after it. -/
theorem constant_record_iff_twicePlain : ∃ r,
    (constant (.alone twicePlain) 0
      (some (.mk .none .array ⟨0, 23⟩ [twicePlainObject]))).outcome = .ok (.records [r]) ∧
    Gives (.alone twicePlain) 1 twicePlainObject (text "a") (text "y") ∧
    Named.get? r (text "a") = some (text "y") ∧
    ¬ Overridden (.alone twicePlain) 1 twicePlainObject (text "a") := by
  have hrecords : (constant (.alone twicePlain) 0
      (some (.mk .none .array ⟨0, 23⟩ [twicePlainObject]))).outcome =
        .ok (.records [[(text "a", text "y")]]) := rfl
  have hgives : Gives (.alone twicePlain) 1 twicePlainObject (text "a") (text "y") := by
    refine ⟨[plainProperty 2], plainProperty 8, [quotedProperty 14], rfl, ⟨rfl, rfl⟩, ?_⟩
    intro p hp
    obtain rfl := List.mem_singleton.1 hp
    rintro ((hn | ⟨-, q, hq, -, hv⟩) | hk)
    · cases hn
    · cases hq
      revert hv
      decide
    · cases hk
  have h := constant_record_iff rfl rfl hrecords
  obtain ⟨o, hu, -, hr⟩ := (List.forall₂_cons.1 h).1
  cases hu
  exact ⟨_, hrecords, hgives, (hr _ _).2.1 hgives⟩

/-- The text of `[{a:'x','a':'y'}]`. -/
def quotedLater : Source := ⟨(Utf8.encode (text "[\x7ba:'x','a':'y'\x7d]")).toArray⟩

/-- The object literal of `quotedLater`. -/
def quotedLaterObject : Node := .mk .none .object ⟨1, 16⟩ [plainProperty 2, quotedProperty 8]

/-- The record of `quotedLater` has the plain `a`, which the quoted one after it overrides. -/
theorem constant_record_overridden :
    (constant (.alone quotedLater) 0
      (some (.mk .none .array ⟨0, 17⟩ [quotedLaterObject]))).outcome =
        .ok (.records [[(text "a", text "x")]]) ∧
    ¬ Gives (.alone quotedLater) 1 quotedLaterObject (text "a") (text "x") := by
  refine ⟨rfl, fun h => (gives_iff.1 h).2 ?_⟩
  refine ⟨[plainProperty 2], quotedProperty 8, [], rfl, ⟨.inl (.inr ?_), ?_⟩, by simp⟩
  · exact ⟨rfl, _, rfl, rfl, rfl⟩
  · rintro ⟨v, hn, -⟩
    cases hn

end Example

end KeyTrace.Fold
