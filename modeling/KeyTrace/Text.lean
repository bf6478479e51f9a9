/-
Text as a list of Unicode code points, lone surrogates included: the escape
`\ud83d` cooks to a value of its own, so a key need not be a well-formed string.

`splitOn` cuts at every occurrence of a separator, left to right, and
`replaceAll` is a cut followed by a join.
-/
namespace KeyTrace

/-- A Unicode code point, surrogates included. -/
abbrev CodePoint := Nat

/-- A sequence of code points. -/
abbrev Text := List CodePoint

/-- The code point of a character. -/
abbrev cp (c : Char) : CodePoint := c.toNat

/-- The code points of a string. -/
def text (s : String) : Text := s.toList.map Char.toNat

/-- U+D800 to U+DFFF have no encoded form. -/
def isSurrogate (c : CodePoint) : Bool := 0xD800 ≤ c && c ≤ 0xDFFF

/-- The largest code point there is. -/
def maxCodePoint : CodePoint := 0x10FFFF

def isDigit (c : CodePoint) : Bool := 48 ≤ c && c ≤ 57

def isOctalDigit (c : CodePoint) : Bool := 48 ≤ c && c ≤ 55

def isLowerLetter (c : CodePoint) : Bool := 97 ≤ c && c ≤ 122

def isUpperLetter (c : CodePoint) : Bool := 65 ≤ c && c ≤ 90

def isLetter (c : CodePoint) : Bool := isLowerLetter c || isUpperLetter c

def isHexDigit (c : CodePoint) : Bool :=
  isDigit c || (97 ≤ c && c ≤ 102) || (65 ≤ c && c ≤ 70)

/-- The value of a digit of any base up to sixteen. -/
def digitValue (c : CodePoint) : Nat :=
  if isDigit c then c - 48 else if 97 ≤ c then c - 87 else c - 55

/-- The number a digit string denotes, most significant digit first. -/
def ofDigits (base : Nat) (digits : Text) : Nat :=
  digits.foldl (fun n c => n * base + digitValue c) 0

/-- Decimal digits of a number. -/
def decimal (n : Nat) : Text := text (toString n)

namespace Text

/-- What follows `p` in a text that starts with it. -/
def after? : (p t : Text) → Option Text
  | [], t => some t
  | _ :: _, [] => none
  | a :: p, b :: t => if a = b then after? p t else none

def startsWith (t p : Text) : Bool := (after? p t).isSome

def endsWith (t s : Text) : Bool := startsWith t.reverse s.reverse

/-- `needle` occurs somewhere in the text. -/
def occursIn (needle : Text) : Text → Bool
  | [] => needle.isEmpty
  | c :: t => startsWith (c :: t) needle || occursIn needle t

/-- Puts a code point in front of the first of several pieces. -/
def consHead (c : CodePoint) : List Text → List Text
  | [] => [[c]]
  | p :: ps => (c :: p) :: ps

/-- The cut of `splitOn`: `skip` code points of a separator are still to be passed over. -/
def splitFrom (sep : Text) : (skip : Nat) → Text → List Text
  | _, [] => [[]]
  | k + 1, _ :: t => splitFrom sep k t
  | 0, c :: t =>
    if startsWith (c :: t) sep then [] :: splitFrom sep (sep.length - 1) t
    else consHead c (splitFrom sep 0 t)

/-- The pieces between the occurrences of a non-empty separator, empty pieces included. -/
def splitOn (sep t : Text) : List Text := splitFrom sep 0 t

/-- The pieces with a separator between neighbours. -/
def join (sep : Text) : List Text → Text
  | [] => []
  | [p] => p
  | p :: ps => p ++ sep ++ join sep ps

/-- Every occurrence of `old` becomes `new`. -/
def replaceAll (old new t : Text) : Text := join new (splitOn old t)

/-- Drops the code points that satisfy `p` from both ends. -/
def trim (p : CodePoint → Bool) (t : Text) : Text :=
  ((t.dropWhile p).reverse.dropWhile p).reverse

/-- The order of texts by code point, a proper start of a text coming before it. -/
def le : Text → Text → Bool
  | [], _ => true
  | _ :: _, [] => false
  | a :: s, b :: t => a < b || (a == b && le s t)

/-- Puts a text among texts in order, unless it is there. -/
def insertOnce (t : Text) : List Text → List Text
  | [] => [t]
  | u :: us => if t = u then u :: us else if le t u then t :: u :: us else u :: insertOnce t us

/-- The texts of a list in order, each of them once. -/
def inOrder (l : List Text) : List Text := l.foldr insertOnce []

/-- The part before the first `sep` and the part after it, if there is one. -/
def cut (sep : CodePoint) (t : Text) : Text × Option Text :=
  let head := t.takeWhile (· != sep)
  match t.dropWhile (· != sep) with
  | [] => (head, none)
  | _ :: rest => (head, some rest)

theorem splitFrom_ne_nil (sep : Text) : ∀ (k : Nat) (t : Text), splitFrom sep k t ≠ []
  | _, [] => by simp [splitFrom]
  | k + 1, _ :: t => by simpa [splitFrom] using splitFrom_ne_nil sep k t
  | 0, c :: t => by
    simp only [splitFrom]
    split
    · simp
    · cases h : splitFrom sep 0 t <;> simp [consHead]

theorem join_consHead (sep : Text) (c : CodePoint) (ps : List Text) :
    join sep (consHead c ps) = c :: join sep ps := by
  cases ps with
  | nil => rfl
  | cons p ps => cases ps <;> rfl

end Text
end KeyTrace
