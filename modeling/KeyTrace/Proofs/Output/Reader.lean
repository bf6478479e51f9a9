/-
A reader of JSON documents.

The strings of a document are UTF-16 units, of which a reader joins the halves of a
surrogate pair. So a value is read as it was written, but for two surrogates that make
up a pair (`asRead`, `asRead_of_unpaired`). Numbers are whole.
-/
import KeyTrace.Output.Json
import Mathlib.Data.List.Chain

namespace KeyTrace.Json

section Reading

/-- White space between the parts of a document. -/
def isSpace (c : CodePoint) : Bool := c == 32 || c == 9 || c == 10 || c == 13

def skipSpace (t : Text) : Text := t.dropWhile isSpace

/-- The character that an escape of one letter stands for. -/
def shortEscape? (c : CodePoint) : Option CodePoint :=
  if c = 34 ∨ c = 47 ∨ c = 92 then some c
  else [(98, 8), (102, 12), (110, 10), (114, 13), (116, 9)].lookup c

/-- The units of a string up to its closing quote, and what follows that. -/
def readBody : Text → Option (List Nat × Text)
  | [] => none
  | c :: t =>
    if c = 34 then some ([], t)
    else if c = 92 then
      match t with
      | [] => none
      | e :: t =>
        if e = 117 then
          match t with
          | h₁ :: h₂ :: h₃ :: h₄ :: t =>
            if [h₁, h₂, h₃, h₄].all isHexDigit then
              (readBody t).map fun p => (ofDigits 16 [h₁, h₂, h₃, h₄] :: p.1, p.2)
            else none
          | _ => none
        else (shortEscape? e).bind fun u => (readBody t).map fun p => (u :: p.1, p.2)
    else if c < 32 then none
    else (readBody t).map fun p => (c :: p.1, p.2)

def isHighSurrogate (u : Nat) : Bool := 0xd800 ≤ u && u < 0xdc00

def isLowSurrogate (u : Nat) : Bool := 0xdc00 ≤ u && u < 0xe000

/-- The text of some units: the halves of a surrogate pair are one character. -/
def joinPairs : List Nat → Text
  | [] => []
  | [u] => [u]
  | h :: l :: us =>
    if isHighSurrogate h && isLowSurrogate l then
      (0x10000 + (h - 0xd800) * 0x400 + (l - 0xdc00)) :: joinPairs us
    else h :: joinPairs (l :: us)

/-- A number without sign; no zero stands in front of other digits. -/
def readNumber (t : Text) : Option (Nat × Text) :=
  let digits := t.takeWhile isDigit
  if digits = [] ∨ digits.head? = some 48 ∧ 1 < digits.length then none
  else some (ofDigits 10 digits, t.dropWhile isDigit)

variable {α : Type}

/-- Parts with commas between them, up to a closing bracket. -/
def readParts (item : Text → Option (α × Text)) (close : CodePoint) :
    (steps : Nat) → Text → Option (List α × Text)
  | 0, _ => none
  | steps + 1, t =>
    (item t).bind fun (a, t) =>
      match skipSpace t with
      | [] => none
      | c :: t =>
        if c = close then some ([a], t)
        else if c = 44 then (readParts item close steps t).map fun p => (a :: p.1, p.2)
        else none

/-- What stands between brackets, after the opening one. -/
def readEnclosed (item : Text → Option (α × Text)) (close : CodePoint) (t : Text) :
    Option (List α × Text) :=
  match skipSpace t with
  | [] => none
  | c :: r => if c = close then some ([], r) else readParts item close t.length t

/-- A name, a colon and a value. -/
def readField (value : Text → Option (α × Text)) (t : Text) : Option ((Text × α) × Text) :=
  (Text.after? [34] (skipSpace t)).bind fun t =>
    (readBody t).bind fun (units, t) =>
      (Text.after? [58] (skipSpace t)).bind fun t =>
        (value t).map fun p => ((joinPairs units, p.1), p.2)

/-- The values that are words. -/
def wordValues : List (Text × Json) :=
  [(text "null", .null), (text "true", .bool true), (text "false", .bool false)]

/-- A value of limited depth and what follows it. -/
def readValue : (depth : Nat) → Text → Option (Json × Text)
  | 0, _ => none
  | depth + 1, t =>
    match skipSpace t with
    | [] => none
    | c :: t =>
      if c = 34 then (readBody t).map fun p => (.string (joinPairs p.1), p.2)
      else if c = 91 then (readEnclosed (readValue depth) 93 t).map fun p => (.array p.1, p.2)
      else if c = 123 then
        (readEnclosed (readField (readValue depth)) 125 t).map fun p => (.object p.1, p.2)
      else if c = 45 then (readNumber t).map fun p => (.number (-p.1), p.2)
      else if isDigit c then (readNumber (c :: t)).map fun p => (.number p.1, p.2)
      else wordValues.findSome? fun w => (Text.after? w.1 (c :: t)).map fun t => (w.2, t)

/-- The value that a text is a document of. No value is deeper than its text is long. -/
def read? (t : Text) : Option Json :=
  (readValue t.length t).bind fun p => if (skipSpace p.2).isEmpty then some p.1 else none

end Reading

section AsRead

/-- The units that a text is written in, of sixteen bits each. -/
def unitsOf (t : Text) : List Nat := t.flatMap fun c => (units c).map (· % 0x10000)

/-- A text as a reader has it. -/
def textAsRead (t : Text) : Text := joinPairs (unitsOf t)

mutual

/-- A value as a reader has it. -/
def asRead : Json → Json
  | null => null
  | bool b => bool b
  | number n => number n
  | string t => string (textAsRead t)
  | array items => array (itemsAsRead items)
  | object fields => object (fieldsAsRead fields)
termination_by structural j => j

def itemsAsRead : List Json → List Json
  | [] => []
  | j :: js => asRead j :: itemsAsRead js
termination_by structural l => l

def fieldsAsRead : List (Text × Json) → List (Text × Json)
  | [] => []
  | f :: fs => fieldAsRead f :: fieldsAsRead fs
termination_by structural l => l

def fieldAsRead : Text × Json → Text × Json
  | (name, j) => (textAsRead name, asRead j)
termination_by structural f => f

end

theorem itemsAsRead_eq : ∀ l : List Json, itemsAsRead l = l.map asRead
  | [] => rfl
  | j :: l => by rw [itemsAsRead, itemsAsRead_eq l, List.map_cons]

theorem fieldsAsRead_eq : ∀ l : List (Text × Json), fieldsAsRead l = l.map fieldAsRead
  | [] => rfl
  | f :: l => by rw [fieldsAsRead, fieldsAsRead_eq l, List.map_cons]

/-- Every value is a word, a number, a string, or made of values. -/
theorem induct {motive : Json → Prop} (null : motive .null) (bool : ∀ b, motive (.bool b))
    (number : ∀ n, motive (.number n)) (string : ∀ t, motive (.string t))
    (array : ∀ items : List Json, (∀ j ∈ items, motive j) → motive (.array items))
    (object : ∀ fields : List (Text × Json), (∀ f ∈ fields, motive f.2) → motive (.object fields)) :
    ∀ j, motive j
  | .null => null
  | .bool b => bool b
  | .number n => number n
  | .string t => string t
  | .array items => array items fun j _ => induct null bool number string array object j
  | .object fields => object fields fun f _ => induct null bool number string array object f.2
termination_by j => sizeOf j
decreasing_by
  · rename_i h
    have := List.sizeOf_lt_of_mem h
    simp only [Json.array.sizeOf_spec]
    omega
  · rename_i h
    have := List.sizeOf_lt_of_mem h
    have : sizeOf f.2 < sizeOf f := by cases f; simp +arith
    simp only [Json.object.sizeOf_spec]
    omega

end AsRead

section Unpaired

/-- No two characters of a text are the halves of a surrogate pair. -/
def Unpaired (t : Text) : Prop :=
  (∀ c ∈ t, c ≤ maxCodePoint) ∧ t.IsChain fun a b => ¬ (isHighSurrogate a ∧ isLowSurrogate b)

theorem units_lt {c u : Nat} (hc : c ≤ 0x10ffff) (hu : u ∈ units c) : u < 0x10000 := by
  by_cases hwide : c < 0x10000
  · rw [units, if_pos hwide] at hu
    exact List.mem_singleton.1 hu ▸ hwide
  · rw [units, if_neg hwide] at hu
    rcases List.mem_cons.1 hu with rfl | hu
    · omega
    · rw [List.mem_singleton.1 hu]
      omega

theorem unitsOf_cons {c : CodePoint} (hc : c ≤ maxCodePoint) (t : Text) :
    unitsOf (c :: t) = units c ++ unitsOf t := by
  have hsmall : ∀ u ∈ units c, u % 0x10000 = u := fun u hu => Nat.mod_eq_of_lt (units_lt hc hu)
  rw [unitsOf, List.flatMap_cons, List.map_congr_left hsmall, List.map_id']
  rfl

theorem units_pair {c : Nat} (hwide : 0x10000 ≤ c) (hc : c ≤ 0x10ffff) :
    ∃ h l, units c = [h, l] ∧ isHighSurrogate h = true ∧ isLowSurrogate l = true ∧
      isLowSurrogate h = false ∧ 0x10000 + (h - 0xd800) * 0x400 + (l - 0xdc00) = c := by
  refine ⟨_, _, if_neg (Nat.not_lt.2 hwide), ?_, ?_, ?_, ?_⟩
  · simp only [isHighSurrogate, Bool.and_eq_true, decide_eq_true_eq]
    omega
  · simp only [isLowSurrogate, Bool.and_eq_true, decide_eq_true_eq]
    omega
  · simp only [isLowSurrogate, Bool.and_eq_false_iff, decide_eq_false_iff_not]
    omega
  · omega

theorem joinPairs_cons_of_not_pair {u : Nat} {us : List Nat}
    (h : ∀ l ∈ us.head?, ¬ (isHighSurrogate u ∧ isLowSurrogate l)) :
    joinPairs (u :: us) = u :: joinPairs us := by
  cases us with
  | nil => rfl
  | cons l us =>
    have hpair := h l rfl
    rw [← Bool.and_eq_true] at hpair
    rw [joinPairs, if_neg hpair]

theorem head?_of_isLowSurrogate {t : Text} (h : ∀ c ∈ t, c ≤ maxCodePoint) {u : Nat}
    (hu : u ∈ (unitsOf t).head?) (hlow : isLowSurrogate u = true) : u ∈ t.head? := by
  cases t with
  | nil => cases hu
  | cons c t =>
    have hc := h c List.mem_cons_self
    rw [unitsOf_cons hc] at hu
    by_cases hwide : c < 0x10000
    · rw [units, if_pos hwide] at hu
      exact hu
    · obtain ⟨hi, lo, hunits, -, -, hno, -⟩ := units_pair (Nat.not_lt.1 hwide) hc
      rw [hunits] at hu
      cases hu
      rw [hlow] at hno
      cases hno

theorem textAsRead_of_unpaired {t : Text} (h : Unpaired t) : textAsRead t = t := by
  induction t with
  | nil => rfl
  | cons c t ih =>
    obtain ⟨hall, hchain⟩ := h
    rw [List.isChain_cons] at hchain
    have hc := hall c List.mem_cons_self
    have hall : ∀ d ∈ t, d ≤ maxCodePoint := fun d hd => hall d (List.mem_cons_of_mem c hd)
    have ih : joinPairs (unitsOf t) = t := ih ⟨hall, hchain.2⟩
    rw [textAsRead, unitsOf_cons hc]
    by_cases hwide : c < 0x10000
    · rw [units, if_pos hwide, List.singleton_append, joinPairs_cons_of_not_pair, ih]
      rintro l hl ⟨hhigh, hlow⟩
      exact hchain.1 l (head?_of_isLowSurrogate hall hl hlow) ⟨hhigh, hlow⟩
    · obtain ⟨hi, lo, hunits, hhigh, hlow, -, hjoin⟩ := units_pair (Nat.not_lt.1 hwide) hc
      rw [hunits, List.cons_append, List.singleton_append, joinPairs,
        if_pos (by rw [hhigh, hlow]; rfl), hjoin, ih]

mutual

/-- The texts in a value. -/
def texts : Json → List Text
  | null | bool _ | number _ => []
  | string t => [t]
  | array items => textsOfItems items
  | object fields => textsOfFields fields
termination_by structural j => j

def textsOfItems : List Json → List Text
  | [] => []
  | j :: js => texts j ++ textsOfItems js
termination_by structural l => l

def textsOfFields : List (Text × Json) → List Text
  | [] => []
  | f :: fs => textsOfField f ++ textsOfFields fs
termination_by structural l => l

def textsOfField : Text × Json → List Text
  | (name, j) => name :: texts j
termination_by structural f => f

end

theorem textsOfItems_eq : ∀ l : List Json, textsOfItems l = l.flatMap texts
  | [] => rfl
  | j :: l => by rw [textsOfItems, textsOfItems_eq l, List.flatMap_cons]

theorem textsOfFields_eq : ∀ l : List (Text × Json), textsOfFields l = l.flatMap textsOfField
  | [] => rfl
  | f :: l => by rw [textsOfFields, textsOfFields_eq l, List.flatMap_cons]

/-- A value whose texts have no surrogate pairs is read as it is. -/
theorem asRead_of_unpaired (j : Json) (h : ∀ t ∈ texts j, Unpaired t) : asRead j = j := by
  induction j using induct with
  | null | bool | number => rfl
  | string t => rw [asRead, textAsRead_of_unpaired (h t List.mem_cons_self)]
  | array items ih =>
    rw [texts, textsOfItems_eq] at h
    have hall : ∀ j ∈ items, asRead j = j := fun j hj =>
      ih j hj fun t ht => h t (List.mem_flatMap.2 ⟨j, hj, ht⟩)
    rw [asRead, itemsAsRead_eq, List.map_congr_left hall, List.map_id']
  | object fields ih =>
    rw [texts, textsOfFields_eq] at h
    have hall : ∀ f ∈ fields, fieldAsRead f = f := by
      rintro ⟨name, j⟩ hf
      have hin {t : Text} (ht : t ∈ name :: texts j) : Unpaired t :=
        h t (List.mem_flatMap.2 ⟨_, hf, ht⟩)
      rw [fieldAsRead, textAsRead_of_unpaired (hin List.mem_cons_self),
        ih _ hf fun t ht => hin (List.mem_cons_of_mem name ht)]
    rw [asRead, fieldsAsRead_eq, List.map_congr_left hall, List.map_id']

end Unpaired

end KeyTrace.Json
