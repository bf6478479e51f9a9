/-
What a constant expression can come to.
-/
import KeyTrace.Text.Named

namespace KeyTrace

/-- The string properties of an object, in the order of their first mention. -/
abbrev Record := Named Text

/-- The value of an expression, as far as it is known without running the program. A list of
strings or of records is never empty. -/
inductive Folded where
  | dynamic
  | string (s : Text)
  | strings (l : List Text)
  | records (l : List Record)
deriving DecidableEq, Repr

namespace Folded

def string? : Folded → Option Text
  | string s => some s
  | _ => none

def strings? : Folded → Option (List Text)
  | strings l => some l
  | _ => none

def records? : Folded → Option (List Record)
  | records l => some l
  | _ => none

end Folded

/-- One element of an array. -/
inductive Element where
  | string (s : Text)
  | record (r : Record)
  | neither
deriving DecidableEq, Repr

/-- The elements of an array that have been read, all of one sort. -/
inductive Gathered where
  | nothing
  | strings (l : List Text)
  | records (l : List Record)
deriving DecidableEq, Repr

namespace Gathered

/-- One more element, if it is of the same sort. -/
def add : Gathered → Element → Option Gathered
  | nothing, .string s => some (strings [s])
  | nothing, .record r => some (records [r])
  | strings l, .string s => some (strings (l ++ [s]))
  | records l, .record r => some (records (l ++ [r]))
  | _, _ => none

/-- The value of the array. -/
def value : Gathered → Folded
  | nothing => .dynamic
  | strings l => .strings l
  | records l => .records l

end Gathered
end KeyTrace
