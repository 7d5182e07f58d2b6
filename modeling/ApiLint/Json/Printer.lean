import ApiLint.Decimal.Layout
import ApiLint.Json.Basic

/-!
# JSON text

Values are written without spaces, members in their order, and every character raw that does not
have to be escaped.
-/

namespace ApiLint

/-- Doubles in JSON text are positional from `1e-5` up to `1e16` and always have a point or an
exponent; a tie goes to the even digit. -/
def Number.layout : Layout := ⟨some (-4, 16), true, .toEven⟩

def Number.render : Number → String
  | .int n => toString n
  | .double x => Number.layout.render x

namespace Json

/-- The digit of a value below sixteen, in lower case. -/
def hexDigit (n : Nat) : Char := (Nat.toDigits 16 n).headD '0'

/-- How a character stands in a string. -/
def escaped (c : Char) : List Char :=
  if c = '"' then ['\\', '"']
  else if c = '\\' then ['\\', '\\']
  else if c.toNat = 8 then ['\\', 'b']
  else if c.toNat = 9 then ['\\', 't']
  else if c.toNat = 10 then ['\\', 'n']
  else if c.toNat = 12 then ['\\', 'f']
  else if c.toNat = 13 then ['\\', 'r']
  else if c.toNat < 32 then
    ['\\', 'u', '0', '0', hexDigit (c.toNat / 16), hexDigit (c.toNat % 16)]
  else [c]

def quoted (text : String) : String :=
  String.ofList ('"' :: text.toList.flatMap escaped ++ ['"'])

mutual

/-- The text of a value. -/
def render : Json → String
  | .null => "null"
  | .bool true => "true"
  | .bool false => "false"
  | .num n => n.render
  | .str text => quoted text
  | .arr items => "[" ++ ",".intercalate (renderItems items) ++ "]"
  | .obj members => "\x7b" ++ ",".intercalate (renderMembers members) ++ "\x7d"

def renderItems : List Json → List String
  | [] => []
  | item :: rest => item.render :: renderItems rest

def renderMembers : List (String × Json) → List String
  | [] => []
  | (key, value) :: rest => (quoted key ++ ":" ++ value.render) :: renderMembers rest

end

end Json

end ApiLint
