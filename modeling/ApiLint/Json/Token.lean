import ApiLint.Json.Basic

/-!
# Tokens of JSON text

`Token.ofChars` cuts a text into tokens up to the first character at which no token begins. A
number or string can be well formed and still stand for no value: a number beyond the greatest
double, or a string with an unpaired surrogate. Such a token carries no value.
-/

namespace ApiLint.Json

inductive Token where
  | openList
  | closeList
  | openRecord
  | closeRecord
  | comma
  | colon
  | null
  | bool (value : Bool)
  | number (value : Option Number)
  | string (text : Option String)
  /-- A character at which no token begins, or a token that is cut short. -/
  | fault
deriving DecidableEq

/-! ## Numbers -/

/-- Takes digits into a number as long as it stays below `2 ^ 64`; the other digits are left. -/
def absorb : Nat → List Char → Nat × List Char
  | total, [] => (total, [])
  | total, c :: rest =>
    let next := total * 10 + (c.toNat - '0'.toNat)
    if next < Nat.pow 2 64 then absorb next rest else (total, c :: rest)

/-- A whole number is an integer when it fits in 64 bits, and a double otherwise; minus zero is a
double. -/
def wholeNumber (negative : Bool) (digits : List Char) : Option Number :=
  let (total, dropped) := absorb 0 digits
  let double := fun (_ : Unit) => do
    let x ← Binary64.ofQuotient negative total 1
    .double <$> x.scaleByTen dropped.length
  if dropped ≠ [] then double ()
  else if negative then
    if total = 0 ∨ Nat.pow 2 63 < total then double () else some (.int (-total))
  else some (.int total)

/-- A number with a fraction or an exponent is the double that scaling its leading digits gives:
digits that no longer fit in 64 bits count as zeros. -/
def scaledNumber (negative : Bool) (whole fraction : List Char) (exponent : Int) :
    Option Number := do
  let (total, dropped) := absorb 0 whole
  let (total, left) := absorb total fraction
  let places : Int := dropped.length - (fraction.length - left.length : Nat)
  let x ← Binary64.ofQuotient negative total 1
  .double <$> x.scaleByTen (places + exponent)

/-- The digits at the front, at least one of them, and the rest. -/
def digits? (cs : List Char) : Option (List Char × List Char) :=
  match cs.takeWhile Char.isDigit with
  | [] => none
  | ds => some (ds, cs.dropWhile Char.isDigit)

/-- Digits after a decimal point; none when there is no point. -/
def fraction? : List Char → Option (List Char × List Char)
  | '.' :: rest => digits? rest
  | cs => some ([], cs)

/-- The whole number that digits write. -/
def decimalValue (ds : List Char) : Nat :=
  ds.foldl (fun n c => n * 10 + (c.toNat - '0'.toNat)) 0

def signedExponent? : List Char → Option (Int × List Char)
  | '-' :: rest => (digits? rest).map fun (ds, rest) => (-(decimalValue ds : Int), rest)
  | '+' :: rest => (digits? rest).map fun (ds, rest) => (decimalValue ds, rest)
  | cs => (digits? cs).map fun (ds, rest) => (decimalValue ds, rest)

/-- The exponent after an `e`; none when there is no `e`. -/
def exponent? : List Char → Option (Option Int × List Char)
  | c :: rest =>
    if c = 'e' ∨ c = 'E' then (signedExponent? rest).map fun (e, rest) => (some e, rest)
    else some (none, c :: rest)
  | [] => some (none, [])

/-- The number whose digits begin here; a leading zero stands alone. -/
def unsignedNumber? (negative : Bool) (cs : List Char) : Option (Option Number × List Char) := do
  let (whole, rest) ← digits? cs
  if whole.length ≠ 1 ∧ whole.head? = some '0' then none
  let (fraction, rest) ← fraction? rest
  let (exponent, rest) ← exponent? rest
  match fraction, exponent with
  | [], none => some (wholeNumber negative whole, rest)
  | fraction, exponent => some (scaledNumber negative whole fraction (exponent.getD 0), rest)

/-! ## Strings -/

/-- A character of a string, or a UTF-16 unit that an escape gives. -/
inductive Piece where
  | char (c : Char)
  | unit (value : Nat)

def hexValue? (c : Char) : Option Nat :=
  if '0' ≤ c ∧ c ≤ '9' then some (c.toNat - '0'.toNat)
  else if 'a' ≤ c ∧ c ≤ 'f' then some (c.toNat - 'a'.toNat + 10)
  else if 'A' ≤ c ∧ c ≤ 'F' then some (c.toNat - 'A'.toNat + 10)
  else none

/-- The number that hexadecimal digits write. -/
def hexNumber? (cs : List Char) : Option Nat :=
  cs.foldlM (fun n c => (hexValue? c).map (n * 16 + ·)) 0

/-- What a one-letter escape stands for. -/
def shortEscape? : Char → Option Char
  | '"' => some '"'
  | '\\' => some '\\'
  | '/' => some '/'
  | 'b' => some (Char.ofNat 8)
  | 'f' => some (Char.ofNat 12)
  | 'n' => some '\n'
  | 'r' => some '\r'
  | 't' => some '\t'
  | _ => none

/-- The pieces of a string up to its closing quote, and what follows the quote. -/
def pieces? : List Char → Option (List Piece × List Char)
  | [] => none
  | '"' :: rest => some ([], rest)
  | '\\' :: 'u' :: a :: b :: c :: d :: rest => do
    let value ← hexNumber? [a, b, c, d]
    let (more, rest) ← pieces? rest
    some (.unit value :: more, rest)
  | '\\' :: c :: rest => do
    let c ← shortEscape? c
    let (more, rest) ← pieces? rest
    some (.char c :: more, rest)
  | c :: rest => do
    if c.toNat < 32 then none
    let (more, rest) ← pieces? rest
    some (.char c :: more, rest)

def isLeadingSurrogate (unit : Nat) : Bool := 0xD800 ≤ unit && unit ≤ 0xDBFF

def isTrailingSurrogate (unit : Nat) : Bool := 0xDC00 ≤ unit && unit ≤ 0xDFFF

/-- The characters that the pieces stand for; an unpaired surrogate stands for none. -/
def joinPieces? : List Piece → Option (List Char)
  | [] => some []
  | .char c :: rest => (c :: ·) <$> joinPieces? rest
  | .unit a :: .unit b :: rest =>
    if isLeadingSurrogate a then
      if isTrailingSurrogate b then
        (Char.ofNat (0x10000 + (a - 0xD800) * 0x400 + (b - 0xDC00)) :: ·) <$> joinPieces? rest
      else none
    else if isTrailingSurrogate a then none
    else (Char.ofNat a :: ·) <$> joinPieces? (.unit b :: rest)
  | .unit a :: rest =>
    if isLeadingSurrogate a || isTrailingSurrogate a then none
    else (Char.ofNat a :: ·) <$> joinPieces? rest

/-! ## The token at the front -/

def isBlank (c : Char) : Bool := c == ' ' || c == '\n' || c == '\t' || c == '\r'

/-- The number or string token that begins with `c`, and the rest. -/
def longToken? (c : Char) (rest : List Char) : Option (Token × List Char) := do
  if c = '"' then
    let (pieces, rest) ← pieces? rest
    some (.string ((joinPieces? pieces).map String.ofList), rest)
  else if c = '-' then
    let (value, rest) ← unsignedNumber? true rest
    some (.number value, rest)
  else
    let (value, rest) ← unsignedNumber? false (c :: rest)
    some (.number value, rest)

/-- The token at the front of a text that does not begin with a blank, and the rest. -/
def Token.next? : List Char → Option (Token × List Char)
  | [] => none
  | '[' :: rest => some (.openList, rest)
  | ']' :: rest => some (.closeList, rest)
  | '{' :: rest => some (.openRecord, rest)
  | '}' :: rest => some (.closeRecord, rest)
  | ',' :: rest => some (.comma, rest)
  | ':' :: rest => some (.colon, rest)
  | 'n' :: 'u' :: 'l' :: 'l' :: rest => some (.null, rest)
  | 't' :: 'r' :: 'u' :: 'e' :: rest => some (.bool true, rest)
  | 'f' :: 'a' :: 'l' :: 's' :: 'e' :: rest => some (.bool false, rest)
  | c :: rest => longToken? c rest

/-- The tokens that begin within so many steps; a token takes at least one character. -/
def Token.ofCharsWithin : Nat → List Char → List Token
  | 0, _ => []
  | steps + 1, cs =>
    match cs.dropWhile isBlank with
    | [] => []
    | c :: rest =>
      match Token.next? (c :: rest) with
      | none => [.fault]
      | some (token, rest) => token :: Token.ofCharsWithin steps rest

def Token.ofChars (cs : List Char) : List Token := Token.ofCharsWithin cs.length cs

end ApiLint.Json
