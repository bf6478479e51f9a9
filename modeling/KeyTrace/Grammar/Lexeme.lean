/-
The lexemes of ECMAScript source: blanks and comments, words, numbers, the
insides of literals, and the two questions that depend on the line layout,
whether a statement may end without a semicolon and whether a question mark
opens a conditional.
-/
import KeyTrace.Grammar.Parser

namespace KeyTrace.Grammar

/-- The characters that separate tokens. -/
def isBlank (c : CodePoint) : Bool :=
  c == 32 || (9 ≤ c && c ≤ 13) || c == 0xA0 || c == 0x1680 || (0x2000 ≤ c && c ≤ 0x200B)
    || c == 0x2028 || c == 0x2029 || c == 0x202F || c == 0x205F || c == 0x2060 || c == 0x3000
    || c == 0xFEFF

/-- The blanks that the search for a line end passes over; no-break spaces stop it. -/
def isBreakable (c : CodePoint) : Bool :=
  c == 32 || (9 ≤ c && c ≤ 13) || c == 0x1680 || (0x2000 ≤ c && c ≤ 0x2006)
    || (0x2008 ≤ c && c ≤ 0x200A) || c == 0x2028 || c == 0x2029 || c == 0x205F || c == 0x3000

/-- A line comment runs up to one of these. -/
def endsLine (c : CodePoint) : Bool :=
  c == 10 || c == 13 || c == 0x2028 || c == 0x2029 || c == endMark

/-- A character that a word may go on with. -/
def isWordPart (c : CodePoint) : Bool :=
  isLetter c || isDigit c || c == 95 || c == 36 || c == 127
    || (128 ≤ c && c < brokenByte && !isBlank c)

/-- A character that a word may start with. -/
def isWordStart (c : CodePoint) : Bool := isWordPart c && !isDigit c

namespace Input

/-- The first position from `p` on, within `n` steps, whose character fails `q`. -/
def skipFrom (i : Input) (q : CodePoint → Bool) : (n : Nat) → (p : Nat) → Nat
  | 0, p => p
  | n + 1, p => if q (i.char p) then skipFrom i q n (p + 1) else p

/-- The first position from `p` on whose character fails `q`. -/
def skipWhile (i : Input) (q : CodePoint → Bool) (p : Nat) : Nat :=
  i.skipFrom (fun c => c != endMark && q c) (i.chars.size + 1 - p) p

/-- The end of the block comment whose inside starts at `p`. -/
def blockEnd? (i : Input) : (n : Nat) → (p : Nat) → Option Nat
  | 0, _ => none
  | n + 1, p =>
    if i.char p == endMark then none
    else if i.char p == 42 && i.char (p + 1) == 47 then some (p + 2)
    else blockEnd? i n (p + 1)

/-- The end of the comment at `p`, if one starts there. -/
def commentEnd? (i : Input) (p : Nat) : Option Nat :=
  if i.char p != 47 then none
  else if i.char (p + 1) == 47 then some (i.skipWhile (!endsLine ·) (p + 2))
  else if i.char (p + 1) == 42 then i.blockEnd? (i.chars.size + 1 - p) (p + 2)
  else none

/-- Passes blanks and comments. -/
def skipTrivia (i : Input) : (n : Nat) → (p : Nat) → (comments : List Node) → Nat × List Node
  | 0, p, cs => (p, cs)
  | n + 1, p, cs =>
    let q := i.skipWhile isBlank p
    match i.commentEnd? q with
    | none => (q, cs)
    | some e => skipTrivia i n e (.mk .none .comment ⟨q, e⟩ [] :: cs)

/-- The end of a `\uXXXX` or `\u{N}` at `p`. -/
def unicodeEscapeEnd? (i : Input) (p : Nat) : Option Nat :=
  if !(i.char p == 92 && i.char (p + 1) == cp 'u') then none
  else if i.char (p + 2) == 123 then
    let e := i.skipWhile isHexDigit (p + 3)
    if e > p + 3 && i.char e == 125 then some (e + 1) else none
  else if isHexDigit (i.char (p + 2)) && isHexDigit (i.char (p + 3)) && isHexDigit (i.char (p + 4))
      && isHexDigit (i.char (p + 5)) then some (p + 6)
  else none

/-- The end of a run of word characters and Unicode escapes. -/
def wordTail (i : Input) : (n : Nat) → (p : Nat) → Nat
  | 0, p => p
  | n + 1, p =>
    if isWordPart (i.char p) then wordTail i n (p + 1)
    else match i.unicodeEscapeEnd? p with
      | some e => wordTail i n e
      | none => p

/-- The end of the word at `p`. -/
def wordEnd? (i : Input) (p : Nat) : Option Nat :=
  if isWordStart (i.char p) then some (i.wordTail (i.chars.size + 1 - p) (p + 1))
  else (i.unicodeEscapeEnd? p).map (i.wordTail (i.chars.size + 1 - p))

/-- The end of a run of digits that single underscores may separate. -/
def digitsTail (i : Input) (q : CodePoint → Bool) : (n : Nat) → (p : Nat) → Nat
  | 0, p => p
  | n + 1, p =>
    if q (i.char p) then digitsTail i q n (p + 1)
    else if i.char p == 95 && q (i.char (p + 1)) then digitsTail i q n (p + 2)
    else p

/-- The end of at least one digit. -/
def digitsEnd? (i : Input) (q : CodePoint → Bool) (p : Nat) : Option Nat :=
  if q (i.char p) then some (i.digitsTail q (i.chars.size + 1 - p) p) else none

/-- The end of an exponent at `p`, which is `p` where there is none. -/
def exponentEnd (i : Input) (p : Nat) : Nat :=
  if i.char p == cp 'e' || i.char p == cp 'E' then
    let q := if i.char (p + 1) == 43 || i.char (p + 1) == 45 then p + 2 else p + 1
    (i.digitsEnd? isDigit q).getD p
  else p

/-- The end of the number at `p`. -/
def numberEnd? (i : Input) (p : Nat) : Option Nat :=
  let big (e : Nat) : Nat := if i.char e == cp 'n' then e + 1 else e
  let based (q : CodePoint → Bool) : Option Nat := (i.digitsEnd? q (p + 2)).map big
  let plain : Option Nat :=
    if isDigit (i.char p) then
      match i.digitsEnd? isDigit p with
      | none => none
      | some e =>
        if i.char e == 46 then
          some (i.exponentEnd ((i.digitsEnd? isDigit (e + 1)).getD (e + 1)))
        else if i.exponentEnd e > e then some (i.exponentEnd e)
        else some (big e)
    else if i.char p == 46 then (i.digitsEnd? isDigit (p + 1)).map i.exponentEnd
    else none
  if i.char p == 48 then
    let mark := i.char (p + 1)
    if mark == cp 'x' || mark == cp 'X' then based isHexDigit
    else if mark == cp 'b' || mark == cp 'B' then based fun c => c == 48 || c == 49
    else if mark == cp 'o' || mark == cp 'O' then based isOctalDigit
    else plain
  else plain

/-- The end of the escape at the backslash `p`. -/
def escapeEnd? (i : Input) (p : Nat) : Option Nat :=
  let c := i.char (p + 1)
  let d := i.char (p + 2)
  if c == endMark || c == 0 then none
  else if (c == 13 || c == 63) && (d == 10 || d == 0x2028 || d == 0x2029) then some (p + 3)
  else if c == cp 'u' then i.unicodeEscapeEnd? p
  else if c == cp 'x' then
    if isHexDigit d && isHexDigit (i.char (p + 3)) then some (p + 4) else none
  else if isOctalDigit c then
    if isOctalDigit d then
      if isOctalDigit (i.char (p + 3)) then some (p + 4) else some (p + 3)
    else some (p + 2)
  else some (p + 2)

/-- The parts of a string up to the closing quote, and the position of that quote. -/
def stringParts? (i : Input) (quote : CodePoint) : (n : Nat) → (p : Nat) → Option (List Node × Nat)
  | 0, _ => none
  | n + 1, p =>
    let c := i.char p
    if c == quote then some ([], p)
    else if c == 92 then
      match i.escapeEnd? p with
      | none => none
      | some e =>
        (stringParts? i quote n e).map fun (ps, q) => (.mk .none .escapeSequence ⟨p, e⟩ [] :: ps, q)
    else
      let e := i.skipWhile (fun c => c != quote && c != 92 && c != 13 && c != 10 && c != 0) p
      if e > p then
        (stringParts? i quote n e).map fun (ps, q) => (.mk .none .stringFragment ⟨p, e⟩ [] :: ps, q)
      else none

/-- The end of the template text at `p`: a backtick, a backslash, or a dollar sign in front of
a brace. -/
def templateTextEnd? (i : Input) : (n : Nat) → (p : Nat) → Option Nat
  | 0, _ => none
  | n + 1, p =>
    let c := i.char p
    if c == 96 || c == 92 || (c == 36 && i.char (p + 1) == 123) then some p
    else if c == endMark || c == 0 then none
    else templateTextEnd? i n (p + 1)

/-- The end of the bracketed class of a regular expression whose inside starts at `p`. -/
def regexClassEnd? (i : Input) : (n : Nat) → (p : Nat) → Option Nat
  | 0, _ => none
  | n + 1, p =>
    let c := i.char p
    if c == 93 then some (p + 1)
    else if c == 92 then
      if i.char (p + 1) == 10 || i.char (p + 1) == endMark then none else regexClassEnd? i n (p + 2)
    else if c == 10 || c == endMark || c == 0 then none
    else regexClassEnd? i n (p + 1)

/-- The position of the slash that ends the regular expression whose inside starts at `p`. -/
def regexEnd? (i : Input) : (n : Nat) → (p : Nat) → Option Nat
  | 0, _ => none
  | n + 1, p =>
    let c := i.char p
    if c == 47 then some p
    else if c == 92 then
      if i.char (p + 1) == 10 || i.char (p + 1) == endMark then none else regexEnd? i n (p + 2)
    else if c == 91 then
      match i.regexClassEnd? n (p + 1) with
      | some e => regexEnd? i n e
      | none => none
    else if c == 10 || c == endMark || c == 0 then none
    else regexEnd? i n (p + 1)

/-- The end of JSX text at `p`; text of line breaks and indentation alone does not count. -/
def jsxTextEnd? (i : Input) : (n : Nat) → (p : Nat) → (sawText atBreak : Bool) → Option Nat
  | 0, _, _, _ => none
  | n + 1, p, sawText, atBreak =>
    let c := i.char p
    if c == endMark || c == 0 || c == 60 || c == 62 || c == 123 || c == 125 || c == 38 then
      if sawText then some p else none
    else if c == 10 then jsxTextEnd? i n (p + 1) sawText true
    else
      let still := atBreak && isBreakable c
      jsxTextEnd? i n (p + 1) (sawText || !still) still

/-- The end of the character reference at the ampersand `p`. -/
def referenceEnd? (i : Input) (p : Nat) : Option Nat :=
  let run (q : CodePoint → Bool) (start most : Nat) : Option Nat :=
    let e := i.skipWhile q start
    if e > start && e - start ≤ most && i.char e == 59 then some (e + 1) else none
  if i.char p != 38 then none
  else if i.char (p + 1) == 35 then
    if i.char (p + 2) == cp 'x' || i.char (p + 2) == cp 'X' then run isHexDigit (p + 3) 6
    else run isDigit (p + 2) 5
  else run isLetter (p + 1) 30

/-- The position after blanks and comments; none at a slash that starts no comment. -/
def breakTrivia? (i : Input) : (n : Nat) → (p : Nat) → Option Nat
  | 0, p => some p
  | n + 1, p =>
    let q := i.skipWhile isBreakable p
    if i.char q != 47 then some q
    else match i.commentEnd? q with
      | some e => breakTrivia? i n e
      | none => none

/-- What may follow a statement that ends without a semicolon. -/
structure Ending where
  /-- An expression has just been read, so that a bracket would go on with it. -/
  afterExpression : Bool
  /-- A brace would go on with it, as after the head of a function. -/
  blockFollows : Bool

/-- Whether the character after a line break lets the statement before it end. -/
def breakEnds (i : Input) (e : Ending) (p : Nat) : Bool :=
  let c := i.char p
  let types := i.dialect.hasTypes
  if c == 96 || c == 44 || c == 59 || c == 42 || c == 37 || c == 62 || c == 60 || c == 61
      || c == 63 || c == 94 || c == 124 || c == 38 || c == 47 || c == 58 then false
  else if c == 46 then !types && isDigit (i.char (p + 1))
  else if c == 123 then !(types && e.blockFollows)
  else if c == 40 || c == 91 then types && !e.afterExpression
  else if c == 43 then i.char (p + 1) == 43
  else if c == 45 then i.char (p + 1) == 45
  else if c == 33 then i.char (p + 1) != 61
  else if c == cp 'i' then
    if i.char (p + 1) != cp 'n' then true
    else if !isLetter (i.char (p + 2)) then false
    else if !i.reads (text "stanceof") (p + 2) then true
    else isLetter (i.char (p + 10))
  else true

/-- A statement may end at `p` with nothing but blanks, or with nothing at all before a closing
brace or the end. -/
def endsAt (i : Input) (e : Ending) : (n : Nat) → (p : Nat) → Bool
  | 0, _ => false
  | n + 1, p =>
    let c := i.char p
    if c == endMark || c == 0 then true
    else if c == 125 then
      if i.dialect.hasTypes && i.char (i.skipWhile isBreakable (p + 1)) == 58 then e.afterExpression
      else true
    else if c == 10 || c == 0x2028 || c == 0x2029 then
      match i.breakTrivia? n (p + 1) with
      | some q => i.breakEnds e q
      | none => false
    else if isBreakable c then endsAt i e n (p + 1)
    else false

/-- The place where a statement that has been read up to `p` ends without a semicolon: there, or
after one of the comments that follow. -/
def ending? (i : Input) (e : Ending) : (n : Nat) → (p : Nat) → Option Nat
  | 0, _ => none
  | n + 1, p =>
    if i.endsAt e (i.chars.size + 1) p then some p
    else match i.commentEnd? (i.skipWhile isBlank p) with
      | some q => ending? i e n q
      | none => none

/-- The question mark at `p` opens a conditional expression. -/
def opensConditional (i : Input) (p : Nat) : Bool :=
  let c := i.char (p + 1)
  if i.char p != 63 || c == 63 then false
  else if c == 46 then !i.dialect.hasTypes && isDigit (i.char (p + 2))
  else if !i.dialect.hasTypes then true
  else
    let q := i.skipWhile isBreakable (p + 1)
    let d := i.char q
    if d == 58 || d == 41 || d == 44 then false
    else if d == 46 then isDigit (i.char (q + 1))
    else true

end Input

namespace Parser

/-- Moves behind a token that ends at `e`, past the blanks and comments after it. -/
@[inline] def advance (e : Nat) : Parser Unit := fun i c =>
  let (p, cs) := i.skipTrivia (i.chars.size + 1) e c.comments
  some ((), ⟨e, p, cs⟩)

/-- Moves behind a token that ends at `e`, and no further. -/
@[inline] def advanceRaw (e : Nat) : Parser Unit := fun _ c => some ((), ⟨e, e, c.comments⟩)

/-- Goes on past the blanks and comments at the cursor. -/
@[inline] def settle : Parser Unit := fun i c =>
  let (p, cs) := i.skipTrivia (i.chars.size + 1) c.pos c.comments
  some ((), { c with pos := p, comments := cs })

/-- The punctuation `t`. -/
@[inline] def symbol (t : Text) : Parser Unit := fun i c =>
  if i.reads t c.pos then advance (c.pos + t.length) i c else none

/-- The punctuation `t`, after which blanks count. -/
@[inline] def symbolRaw (t : Text) : Parser Unit := fun i c =>
  if i.reads t c.pos then advanceRaw (c.pos + t.length) i c else none

/-- One character of punctuation. -/
@[inline] def sign (a : Char) : Parser Unit := fun i c =>
  if i.char c.pos == cp a then advance (c.pos + 1) i c else none

/-- The next character is `a`. -/
@[inline] def atSign (a : Char) : Parser Bool := fun i c => some (i.char c.pos == cp a, c)

/-- A word of any spelling. -/
@[inline] def word : Parser Text := fun i c =>
  match i.wordEnd? c.pos with
  | none => none
  | some e => (advance e i c).map fun (_, c') => (i.range c.pos e, c')

/-- The spelling of the next word, empty if there is none. -/
@[inline] def peekWord : Parser Text := fun i c =>
  match i.wordEnd? c.pos with
  | none => some ([], c)
  | some e => some (i.range c.pos e, c)

/-- The word `t`. -/
@[inline] def keyword (t : Text) : Parser Unit := fun i c =>
  if !i.reads t c.pos then none
  else match i.wordEnd? c.pos with
    | none => none
    | some e => if e == c.pos + t.length then advance e i c else none

/-- The next word is `t`. -/
@[inline] def atKeyword (t : Text) : Parser Bool := ahead (keyword t)

/-- The statement read so far may end here without a semicolon. -/
@[inline] def mayEnd (e : Input.Ending) : Parser Bool := fun i c =>
  some ((i.ending? e (i.chars.size + 1) c.last).isSome, c)

/-- Ends the statement without a semicolon, at a place that counts as its end. -/
@[inline] def endHere (e : Input.Ending) : Parser Unit := fun i c =>
  match i.ending? e (i.chars.size + 1) c.last with
  | some p => some ((), { c with last := p })
  | none => none

/-- Ends a statement, by a semicolon or without. -/
@[inline] def semicolon (e : Input.Ending) : Parser Unit := fun i c =>
  match endHere e i c with
  | some r => some r
  | none => sign ';' i c

end Parser
end KeyTrace.Grammar
