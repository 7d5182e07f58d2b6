/-!
# Positions in a YAML text

A cursor is what is left of a text, with the place where it stands: the number of characters
before it, its line and its column. Five kinds of line break end a line.
-/

namespace ApiLint.Yaml

/-! ## Characters -/

def isSpaceOrTab (c : Char) : Bool := c == ' ' || c == '\t'

/-- The code points of line breaks. -/
def breakCodes : List Nat := [0x0A, 0x0D, 0x85, 0x2028, 0x2029]

def isBreak (c : Char) : Bool := c.toNat ∈ breakCodes

/-- Whether a character is a blank or a break; so is the end of the text. -/
def isGap : Option Char → Bool
  | none => true
  | some c => isSpaceOrTab c || isBreak c

/-- Characters of anchors and of tag handles. -/
def isWordChar (c : Char) : Bool := c.isAlphanum || c == '-' || c == '_'

/-- The ranges of code points that a text may hold. -/
def allowedRanges : List (Nat × Nat) :=
  [(0x09, 0x0A), (0x0D, 0x0D), (0x20, 0x7E), (0x85, 0x85), (0xA0, 0xD7FF), (0xE000, 0xFFFD),
    (0x10000, 0x10FFFF)]

def isAllowed (c : Char) : Bool :=
  allowedRanges.any fun (first, last) => first ≤ c.toNat && c.toNat ≤ last

/-- The mark that may stand at the beginning of a text. -/
def byteOrderMark : Char := Char.ofNat 0xFEFF

/-! ## Cursors -/

structure Cursor where
  rest : List Char
  index : Nat := 0
  line : Nat := 0
  column : Nat := 0

namespace Cursor

def head? (c : Cursor) : Option Char := c.rest.head?

/-- The character so many places ahead. -/
def ahead? (c : Cursor) (places : Nat) : Option Char := c.rest[places]?

/-- Goes past characters that are no breaks. -/
def advance (c : Cursor) (count : Nat) : Cursor :=
  { c with rest := c.rest.drop count, index := c.index + count, column := c.column + count }

/-- Goes to the next line, `count` characters further. -/
def nextLine (c : Cursor) (count : Nat) : Cursor :=
  { rest := c.rest.drop count, index := c.index + count, line := c.line + 1 }

/-- Reads a break, if there is one: a line feed stands for all but the two separators. -/
def readBreak (c : Cursor) : List Char × Cursor :=
  match c.rest with
  | '\r' :: '\n' :: _ => (['\n'], c.nextLine 2)
  | b :: _ =>
    if isBreak b then ([if b.toNat < 0x2028 then '\n' else b], c.nextLine 1) else ([], c)
  | [] => ([], c)

/-- The characters at the front that pass a test, and the cursor behind them. -/
def span (c : Cursor) (test : Char → Bool) : List Char × Cursor :=
  let taken := c.rest.takeWhile test
  (taken, c.advance taken.length)

def skipWhile (c : Cursor) (test : Char → Bool) : Cursor := (c.span test).2

/-- Goes past a comment, if there is one. -/
def skipComment (c : Cursor) : Cursor :=
  if c.head? = some '#' then c.skipWhile (!isBreak ·) else c

/-- Whether a line begins here with this mark, which a gap has to follow. -/
def atMark (c : Cursor) (mark : Char) : Bool :=
  c.column = 0 && c.rest.take 3 == [mark, mark, mark] && isGap (c.ahead? 3)

/-- Whether a document begins or ends here. -/
def atDocumentMark (c : Cursor) : Bool := c.atMark '-' || c.atMark '.'

end Cursor

end ApiLint.Yaml
