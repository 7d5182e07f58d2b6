/-!
# Comparing and aligning text

Beginnings are compared by code points, letter case is ignored for the 26 ASCII letters only, and
a blank is any character with the Unicode property White_Space.
-/

namespace ApiLint.Text

def startsWith (text start : String) : Bool := start.toList.isPrefixOf text.toList

/-- Equality up to the case of ASCII letters. -/
def sameIgnoringCase (a b : String) : Bool :=
  a.toList.map Char.toLower == b.toList.map Char.toLower

/-! ## Blanks -/

/-- The ranges of code points that have the property White_Space. -/
def blankRanges : List (Nat × Nat) :=
  [(0x09, 0x0D), (0x20, 0x20), (0x85, 0x85), (0xA0, 0xA0), (0x1680, 0x1680), (0x2000, 0x200A),
    (0x2028, 0x2029), (0x202F, 0x202F), (0x205F, 0x205F), (0x3000, 0x3000)]

def isBlankChar (c : Char) : Bool :=
  blankRanges.any fun (first, last) => first ≤ c.toNat && c.toNat ≤ last

/-- Whether a text is empty or holds blanks only. -/
def isBlank (text : String) : Bool := text.toList.all isBlankChar

/-! ## Alignment -/

inductive Alignment where
  | left
  | right
  | center
deriving DecidableEq

/-- Fills a text up with spaces to `width` characters; of an odd number of them the centred text
has one more on its right. -/
def align (alignment : Alignment) (width : Nat) (text : String) : String :=
  let missing := width - text.length
  let before :=
    match alignment with
    | .left => 0
    | .right => missing
    | .center => missing / 2
  String.ofList
    (List.replicate before ' ' ++ text.toList ++ List.replicate (missing - before) ' ')

end ApiLint.Text
