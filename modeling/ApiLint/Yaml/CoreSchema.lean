import ApiLint.Json.Token
import ApiLint.Yaml.Scalar

/-!
# The values of scalars

A plain scalar without a tag may be null, a truth value or a number, and is a string otherwise;
quoted and block scalars are strings. A tag of the core schema asks for one reading. Numbers that
are not finite become null.
-/

namespace ApiLint.Yaml

/-! ## Words -/

def isNullWord (text : String) : Bool := text ∈ ["null", "Null", "NULL", "~"]

def flagOfWord? (text : String) : Option Bool :=
  if text ∈ ["true", "True", "TRUE"] then some true
  else if text ∈ ["false", "False", "FALSE"] then some false
  else none

/-! ## Whole numbers -/

/-- The number that digits of a base write; there must be a digit. -/
def baseNumber? (base : Nat) (digits : List Char) : Option Nat :=
  if digits.isEmpty then none
  else digits.foldlM (fun n c => do
    let d ← Json.hexValue? c
    if d < base then some (n * base + d) else none) 0

/-- A number without a sign: in a base that it begins with, or in decimal without leading zeros. -/
def magnitude? : List Char → Option Nat
  | '0' :: 'x' :: digits => baseNumber? 16 digits
  | '0' :: 'o' :: digits => baseNumber? 8 digits
  | '0' :: 'b' :: digits => baseNumber? 2 digits
  | '0' :: _ :: _ => none
  | digits => baseNumber? 10 digits

/-- A whole number of at most 128 bits. -/
def wholeNumber? (cs : List Char) : Option Int :=
  match cs with
  | '-' :: cs => (magnitude? cs).bind fun n => if n ≤ Nat.pow 2 127 then some (-n) else none
  | '+' :: cs => (magnitude? cs).bind fun n => if n < Nat.pow 2 128 then some n else none
  | cs => (magnitude? cs).bind fun n => if n < Nat.pow 2 128 then some n else none

/-- Of whole numbers those of 64 bits have a value. -/
def wholeValue? (n : Int) : Option Json :=
  if -Int.pow 2 63 ≤ n ∧ n < Int.pow 2 64 then some (.num (.int n)) else none

/-! ## Doubles -/

/-- Whether the text is digits that begin with a zero which does not stand alone. -/
def isPadded : List Char → Bool
  | '0' :: c :: rest => (c :: rest).all Char.isDigit
  | _ => false

/-- Drops a sign at the front. -/
def unsigned : List Char → List Char
  | '-' :: cs | '+' :: cs => cs
  | cs => cs

/-- The value of digits with a point or an exponent, if it is not beyond the greatest double. -/
def finite? (negative : Bool) (cs : List Char) : Option Binary64 := do
  let (whole, rest) := (cs.takeWhile Char.isDigit, cs.dropWhile Char.isDigit)
  let (fraction, rest) :=
    match rest with
    | '.' :: rest => (rest.takeWhile Char.isDigit, rest.dropWhile Char.isDigit)
    | rest => ([], rest)
  let digits := whole ++ fraction
  let (exponent, rest) ← Json.exponent? rest
  if digits.isEmpty ∨ !rest.isEmpty then none
  Binary64.ofDecimal negative (Json.decimalValue digits)
    (exponent.getD 0 - fraction.length)

/-- The value of a number with a point or an exponent. Words stand for numbers that are not
finite. -/
def doubleValue? (text : String) : Option Json :=
  if text ∈ [".inf", ".Inf", ".INF", "+.inf", "+.Inf", "+.INF", "-.inf", "-.Inf", "-.INF", ".nan",
    ".NaN", ".NAN"] then some .null
  else
    (finite? (text.toList.head? = some '-') (unsigned text.toList)).map fun x => .num (.double x)

/-! ## Scalars -/

/-- The value of a plain scalar without a tag. A whole number of more than 64 bits has none. -/
def plainValue? (text : String) : Option Json :=
  if text.isEmpty || isNullWord text then some .null
  else
    match flagOfWord? text, wholeNumber? text.toList with
    | some flag, _ => some (.bool flag)
    | none, some n => wholeValue? n
    | none, none =>
      if isPadded (unsigned text.toList) then some (.str text)
      else some ((doubleValue? text).getD (.str text))

/-- The full form of a tag of the core schema. -/
def coreTag (name : String) : String := "tag:yaml.org,2002:" ++ name

/-- What a local tag names: the text behind its exclamation mark, or the mark alone. -/
def localTag? (tag : String) : Option String :=
  match tag.toList with
  | ['!'] => some tag
  | '!' :: name => some (String.ofList name)
  | _ => none

/-- The value of a scalar. A local tag asks for something that is no value. -/
def scalarValue? (tag : Option String) (text : String) (style : Style) : Option Json :=
  match tag with
  | none => if style = .plain then plainValue? text else some (.str text)
  | some tag =>
    if (localTag? tag).isSome then none
    else if tag = coreTag "bool" then .bool <$> flagOfWord? text
    else if tag = coreTag "int" then (wholeNumber? text.toList).bind wholeValue?
    else if tag = coreTag "float" then doubleValue? text
    else if tag = coreTag "null" then if isNullWord text then some .null else none
    else some (.str text)

end ApiLint.Yaml
