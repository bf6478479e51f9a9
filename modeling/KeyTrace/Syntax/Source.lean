/-
A source file as bytes, with the three ways to look at a position in it: the
byte offset that a syntax tree uses, the character offset that answers use, and
the line.
-/
import KeyTrace.Text.Utf8

namespace KeyTrace

/-- A half-open range of byte offsets. -/
structure Span where
  start : Nat
  stop : Nat
deriving DecidableEq, Repr

/-- The bytes of a program. -/
structure Source where
  bytes : Array UInt8
deriving DecidableEq

namespace Source

/-- The UTF-8 form of a text; a text with a surrogate has none. -/
def ofText? (t : Text) : Option Source := (Utf8.encode? t).map fun bs => ⟨bs.toArray⟩

/-- Every byte is an ASCII character of its own. -/
def isAscii (s : Source) : Bool := s.bytes.all (· < 0x80)

/-- The characters of a stretch of bytes. -/
def slice (s : Source) (span : Span) : Text :=
  Utf8.decode (s.bytes.extract span.start span.stop).toList

/-- The number of characters before a byte offset. All-ASCII text needs no counting, and an
offset past its end is answered as it stands. -/
def charOffset (s : Source) (offset : Nat) : Nat :=
  if s.isAscii then offset
  else (Utf8.decode (s.bytes.toList.take offset)).length

/-- The number of characters before an offset that may be negative and then counts from the end.
-/
def charOffsetAt (s : Source) (offset : Int) : Int :=
  if s.isAscii then offset
  else if offset < 0 then s.charOffset (s.bytes.size + offset).toNat
  else s.charOffset offset.toNat

/-- The line of a byte offset, counted from one. -/
def line (s : Source) (offset : Nat) : Nat :=
  (s.bytes.extract 0 offset).toList.count 10 + 1

end Source
end KeyTrace
