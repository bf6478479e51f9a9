/-
The UTF-8 form of text. `encode` writes it, `pieces` cuts any byte string into
characters and ill-formed pieces, each piece the longest start of a character
that breaks off there, and `decode` reads every such piece as U+FFFD.
-/
import KeyTrace.Text

namespace KeyTrace.Utf8

/-- The bytes of one code point. -/
def encodePoint (c : CodePoint) : List UInt8 :=
  if c < 0x80 then [UInt8.ofNat c]
  else if c < 0x800 then [UInt8.ofNat (0xC0 + c / 64), UInt8.ofNat (0x80 + c % 64)]
  else if c < 0x10000 then
    [UInt8.ofNat (0xE0 + c / 4096), UInt8.ofNat (0x80 + c / 64 % 64), UInt8.ofNat (0x80 + c % 64)]
  else
    [UInt8.ofNat (0xF0 + c / 262144), UInt8.ofNat (0x80 + c / 4096 % 64),
      UInt8.ofNat (0x80 + c / 64 % 64), UInt8.ofNat (0x80 + c % 64)]

/-- The bytes of a text without surrogates. -/
def encode (t : Text) : List UInt8 := t.flatMap encodePoint

/-- Text with a surrogate has no encoded form. -/
def encode? (t : Text) : Option (List UInt8) :=
  if t.any isSurrogate then none else some (encode t)

/-- A stretch of bytes: a character, or an ill-formed piece. -/
structure Piece where
  point : Option CodePoint
  width : Nat
deriving DecidableEq, Repr

def isContinuation (b : UInt8) : Bool := 0x80 ≤ b && b ≤ 0xBF

/-- How a first byte announces a character: the number of bytes to follow and the range of the
first of them, which rules out overlong forms, surrogates and values past U+10FFFF. -/
def lead (b : UInt8) : Option (Nat × UInt8 × UInt8) :=
  if 0xC2 ≤ b && b ≤ 0xDF then some (1, 0x80, 0xBF)
  else if b == 0xE0 then some (2, 0xA0, 0xBF)
  else if b == 0xED then some (2, 0x80, 0x9F)
  else if 0xE1 ≤ b && b ≤ 0xEF then some (2, 0x80, 0xBF)
  else if b == 0xF0 then some (3, 0x90, 0xBF)
  else if b == 0xF4 then some (3, 0x80, 0x8F)
  else if 0xF1 ≤ b && b ≤ 0xF3 then some (3, 0x80, 0xBF)
  else none

/-- The low six bits of a continuation byte. -/
def payload (b : UInt8) : Nat := b.toNat % 64

/-- Cuts a byte string into characters and ill-formed pieces. -/
def pieces : List UInt8 → List Piece
  | [] => []
  | b :: r =>
    if b < 0x80 then ⟨some b.toNat, 1⟩ :: pieces r
    else match lead b with
      | none => ⟨none, 1⟩ :: pieces r
      | some (n, lo, hi) =>
        match r with
        | [] => [⟨none, 1⟩]
        | b1 :: r1 =>
          if !(lo ≤ b1 && b1 ≤ hi) then ⟨none, 1⟩ :: pieces (b1 :: r1)
          else if n == 1 then ⟨some (b.toNat % 32 * 64 + payload b1), 2⟩ :: pieces r1
          else match r1 with
            | [] => [⟨none, 2⟩]
            | b2 :: r2 =>
              if !isContinuation b2 then ⟨none, 2⟩ :: pieces (b2 :: r2)
              else if n == 2 then
                ⟨some (b.toNat % 16 * 4096 + payload b1 * 64 + payload b2), 3⟩ :: pieces r2
              else match r2 with
                | [] => [⟨none, 3⟩]
                | b3 :: r3 =>
                  if !isContinuation b3 then ⟨none, 3⟩ :: pieces (b3 :: r3)
                  else
                    ⟨some (b.toNat % 8 * 262144 + payload b1 * 4096 + payload b2 * 64 + payload b3), 4⟩
                      :: pieces r3

/-- U+FFFD stands for a piece that is no character. -/
def replacement : CodePoint := 0xFFFD

/-- The text of a byte string, each ill-formed piece read as U+FFFD. -/
def decode (bytes : List UInt8) : Text :=
  (pieces bytes).map fun p => p.point.getD replacement

/-- The text of a well-formed byte string. -/
def decode? (bytes : List UInt8) : Option Text :=
  (pieces bytes).mapM Piece.point

end KeyTrace.Utf8
