import ApiLint.Yaml.Scalar

/-!
# Tokens of YAML

The indicators of a text, its scalars and node properties, and the tokens that stand for the
beginning and end of indented blocks.
-/

namespace ApiLint.Yaml

inductive Token where
  | versionDirective (major minor : Nat)
  | tagDirective (handle start : String)
  | documentStart
  | documentEnd
  | blockSequenceStart
  | blockMappingStart
  | blockEnd
  | flowSequenceStart
  | flowSequenceEnd
  | flowMappingStart
  | flowMappingEnd
  | blockEntry
  | flowEntry
  | key
  | value
  | alias (name : String)
  | anchor (name : String)
  | tag (handle suffix : String)
  | scalar (text : String) (style : Style)
  | streamEnd
deriving DecidableEq

/-! ## Anchors and aliases -/

/-- Characters that may follow an anchor or an alias, besides gaps. -/
def anchorEnds : List Char := ['?', ':', ',', ']', '}', '%', '@', Char.ofNat 0x60]

/-- Reads the name behind the sign of an anchor or alias. -/
def anchorName? (c : Cursor) : Option (String × Cursor) := do
  let (name, c) := (c.advance 1).span isWordChar
  if name.isEmpty ∨ !(isGap c.head? || c.head?.any (· ∈ anchorEnds)) then none
  return (String.ofList name, c)

/-! ## Tags -/

/-- Characters of a tag besides word characters and escapes. -/
def tagChars : List Char :=
  [';', '/', '?', ':', '@', '&', '=', '+', '$', '.', '!', '~', '*', '\'', '(', ')']

/-- Reads a handle: an exclamation mark, word characters, and perhaps another one. -/
def tagHandle? (c : Cursor) : Option (List Char × Cursor) := do
  if c.head? ≠ some '!' then none
  let (word, c) := (c.advance 1).span isWordChar
  if c.head? = some '!' then return ('!' :: word ++ ['!'], c.advance 1)
  return ('!' :: word, c)

/-- The bytes at the front that are written as two hexadecimal digits each, behind percent
signs. -/
def escapedBytes : List Char → List UInt8
  | '%' :: a :: b :: rest =>
    match Json.hexNumber? [a, b] with
    | some byte => byte.toUInt8 :: escapedBytes rest
    | none => []
  | _ => []

/-- Reads the characters of a tag; `more` are allowed besides the usual ones. -/
def tagUriWithin (more : List Char) : Nat → Cursor → Option (List Char × Cursor)
  | 0, c => some ([], c)
  | steps + 1, c => do
    let (part, c) := c.span fun x => isWordChar x || x ∈ tagChars || x ∈ more
    if c.head? = some '%' then
      let bytes := escapedBytes c.rest
      let text ← String.fromUTF8? ⟨bytes.toArray⟩
      if bytes.isEmpty then none
      let (others, c) ← tagUriWithin more steps (c.advance (3 * bytes.length))
      return (part ++ text.toList ++ others, c)
    return (part, c)

def tagUri? (more : List Char) (c : Cursor) : Option (List Char × Cursor) :=
  tagUriWithin more (c.rest.length + 1) c

/-- Reads a tag: in angle brackets, behind a handle, or behind a single exclamation mark. -/
def tagToken? (c : Cursor) (inFlow : Bool) : Option (Token × Cursor) := do
  let (handle, suffix, c) ←
    if c.ahead? 1 = some '<' then do
      let (uri, c) ← tagUri? [',', '[', ']'] (c.advance 2)
      if uri.isEmpty ∨ c.head? ≠ some '>' then none
      pure ([], uri, c.advance 1)
    else do
      let (handle, c) ← tagHandle? c
      let (uri, c) ← tagUri? [] c
      if 1 < handle.length ∧ handle.getLast? = some '!' then
        if uri.isEmpty then none
        pure (handle, uri, c)
      else
        let suffix := handle.drop 1 ++ uri
        pure (if suffix.isEmpty then ([], ['!'], c) else (['!'], suffix, c))
  if !isGap c.head? ∧ !(inFlow ∧ c.head? = some ',') then none
  return (.tag (String.ofList handle) (String.ofList suffix), c)

/-! ## Directives -/

/-- Reads a number of at most nine digits. -/
def versionNumber? (c : Cursor) : Option (Nat × Cursor) :=
  let (digits, c) := c.span Char.isDigit
  if digits.isEmpty ∨ 9 < digits.length then none else some (Json.decimalValue digits, c)

def versionToken? (c : Cursor) : Option (Token × Cursor) := do
  let (major, c) ← versionNumber? (c.skipWhile isSpaceOrTab)
  if c.head? ≠ some '.' then none
  let (minor, c) ← versionNumber? (c.advance 1)
  return (.versionDirective major minor, c)

def tagDirectiveToken? (c : Cursor) : Option (Token × Cursor) := do
  let (handle, c) ← tagHandle? (c.skipWhile isSpaceOrTab)
  if handle ≠ ['!'] ∧ (handle.length = 1 ∨ handle.getLast? ≠ some '!') then none
  if !c.head?.any isSpaceOrTab then none
  let (uri, c) ← tagUri? [',', '[', ']'] (c.skipWhile isSpaceOrTab)
  if uri.isEmpty ∨ !isGap c.head? then none
  return (.tagDirective (String.ofList handle) (String.ofList uri), c)

/-- Reads a directive and the rest of its line, which may hold a comment. -/
def directiveToken? (c : Cursor) : Option (Token × Cursor) := do
  let (name, c) := (c.advance 1).span isWordChar
  if !isGap c.head? then none
  let (token, c) ←
    match String.ofList name with
    | "YAML" => versionToken? c
    | "TAG" => tagDirectiveToken? c
    | _ => none
  let c := (c.skipWhile isSpaceOrTab).skipComment
  if !(c.rest.isEmpty || c.head?.any isBreak) then none
  return (token, c.readBreak.2)

end ApiLint.Yaml
