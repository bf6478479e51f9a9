/-
JSON values and their text. Everything past ASCII is escaped in UTF-16 units, so
that a lone surrogate has a form too.
-/
import KeyTrace.Text.Quoted

namespace KeyTrace

inductive Json where
  | null
  | bool (b : Bool)
  | number (n : Int)
  | string (t : Text)
  | array (items : List Json)
  | object (fields : List (Text × Json))
deriving Repr

namespace Json

/-- An escape of one UTF-16 unit. -/
def unitEscape (u : Nat) : Text := text "\\u" ++ Quoted.hexDigits 4 u

/-- The UTF-16 units of a code point. -/
def units (c : CodePoint) : List Nat :=
  if c < 0x10000 then [c]
  else [0xd800 + (c - 0x10000) / 0x400, 0xdc00 + (c - 0x10000) % 0x400]

/-- One character of a string. -/
def encodeOne (c : CodePoint) : Text :=
  if c = 34 ∨ c = 92 then [92, c]
  else if c = 10 then text "\\n"
  else if c = 13 then text "\\r"
  else if c = 9 then text "\\t"
  else if c = 12 then text "\\f"
  else if c = 8 then text "\\b"
  else if 32 ≤ c ∧ c < 127 then [c]
  else (units c).flatMap unitEscape

def encodeString (t : Text) : Text := [34] ++ t.flatMap encodeOne ++ [34]

def encodeNumber (n : Int) : Text := text (toString n)

/-- How the parts of a value are set apart: on lines of their own, each level further in by some
spaces, or all on one line. -/
inductive Layout where
  | oneLine
  | indented (width : Nat)

namespace Layout

/-- The start of a line inside a value. -/
def newline : Layout → (level : Nat) → Text
  | oneLine, _ => []
  | indented w, level => 10 :: List.replicate (w * level) 32

/-- What stands between two parts. -/
def separator : Layout → (level : Nat) → Text
  | oneLine, _ => text ", "
  | indented w, level => 44 :: newline (indented w) level

end Layout

/-- The parts of a value between its brackets. -/
def enclose (layout : Layout) (level : Nat) (left right : CodePoint) (parts : List Text) : Text :=
  match parts with
  | [] => [left, right]
  | _ =>
    [left] ++ layout.newline (level + 1) ++ Text.join (layout.separator (level + 1)) parts
      ++ layout.newline level ++ [right]

mutual

/-- Writes a value that stands on some level. -/
def render (layout : Layout) (level : Nat) : Json → Text
  | null => text "null"
  | bool b => text (if b then "true" else "false")
  | number n => encodeNumber n
  | string t => encodeString t
  | array items => enclose layout level 91 93 (renderItems layout (level + 1) items)
  | object fields => enclose layout level 123 125 (renderFields layout (level + 1) fields)
termination_by structural j => j

def renderItems (layout : Layout) (level : Nat) : List Json → List Text
  | [] => []
  | j :: js => render layout level j :: renderItems layout level js
termination_by structural l => l

def renderFields (layout : Layout) (level : Nat) : List (Text × Json) → List Text
  | [] => []
  | f :: fs => renderField layout level f :: renderFields layout level fs
termination_by structural l => l

def renderField (layout : Layout) (level : Nat) : Text × Json → Text
  | (name, j) => encodeString name ++ text ": " ++ render layout level j
termination_by structural f => f

end

/-- An object with plain names. -/
def fields (l : List (String × Json)) : Json := object (l.map fun p => (KeyTrace.text p.1, p.2))

/-- A value that may be missing. -/
def ofOption {α : Type} (f : α → Json) : Option α → Json
  | some a => f a
  | none => null

def ofNat (n : Nat) : Json := number n

end Json
end KeyTrace
