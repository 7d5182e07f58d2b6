import ApiLint.Yaml.Token

/-!
# The tokens of a YAML text

Outside brackets, columns open and close blocks. A scalar, an alias, a node property or an opening
bracket may turn out to be a key once a colon follows it on the same line; until that is settled
the token is not delivered. A text with a fault delivers the tokens that are settled before it.
-/

namespace ApiLint.Yaml

/-- A token that a colon would make a key, and where it stands. -/
structure KeyCandidate where
  /-- The number of tokens before it. -/
  place : Nat
  /-- Whether a colon has to follow, as the token begins a line of a block mapping. -/
  required : Bool
  index : Nat
  line : Nat
  column : Nat

structure Scanner where
  cursor : Cursor
  tokens : Array Token := #[]
  /-- The column of the innermost block, and those of the blocks around it. -/
  indent : Int := -1
  outerIndents : List Int := []
  /-- The depth of brackets. -/
  depth : Nat := 0
  /-- The candidate inside the innermost brackets, and those outside of them. -/
  candidate : Option KeyCandidate := none
  outerCandidates : List (Option KeyCandidate) := []
  /-- Whether a key may begin here. -/
  keyAllowed : Bool := true

namespace Scanner

def inFlow (s : Scanner) : Bool := 0 < s.depth

def push (s : Scanner) (token : Token) : Scanner := { s with tokens := s.tokens.push token }

/-- Puts tokens between those that are there. -/
def insertAt (s : Scanner) (place : Nat) (new : Array Token) : Scanner :=
  { s with tokens := s.tokens.extract 0 place ++ new ++ s.tokens.extract place s.tokens.size }

/-- Goes past characters of a token. -/
def advance (s : Scanner) (count : Nat) : Scanner := { s with cursor := s.cursor.advance count }

/-! ## Candidates for keys -/

/-- A key ends on its line and within 1024 characters. -/
def isStale (s : Scanner) (k : KeyCandidate) : Bool :=
  k.line < s.cursor.line || k.index + 1024 < s.cursor.index

/-- What remains of a candidate; a required key that is stale is a fault. -/
def keep? (s : Scanner) (k : Option KeyCandidate) : Option (Option KeyCandidate) :=
  match k with
  | none => some none
  | some k => if s.isStale k then if k.required then none else some none else some (some k)

/-- Gives up candidates that are stale. -/
def settle? (s : Scanner) : Option Scanner := do
  let outerCandidates ← s.outerCandidates.mapM s.keep?
  let candidate ← s.keep? s.candidate
  return { s with candidate, outerCandidates }

/-- The first candidate, or the end of the tokens. Tokens before this place are settled. -/
def settled (s : Scanner) : Nat :=
  (s.candidate :: s.outerCandidates).foldl
    (fun least k => k.elim least fun k => min least k.place) s.tokens.size

/-- Gives up the innermost candidate. -/
def dropCandidate? (s : Scanner) : Option Scanner :=
  if s.candidate.any (·.required) then none else some { s with candidate := none }

/-- Makes the token that begins here a candidate, where a key may begin. -/
def offerCandidate? (s : Scanner) : Option Scanner :=
  if s.keyAllowed then do
    let s ← s.dropCandidate?
    let candidate : KeyCandidate := {
      place := s.tokens.size
      required := !s.inFlow && s.indent == s.cursor.column
      index := s.cursor.index
      line := s.cursor.line
      column := s.cursor.column }
    return { s with candidate := some candidate }
  else some s

/-! ## Blocks -/

/-- Closes blocks that are indented more than `column`. -/
def closeBlocks (column : Int) : List Int → Scanner → Scanner
  | [], s => s
  | outer :: rest, s =>
    if column < s.indent then
      closeBlocks column rest { s.push .blockEnd with indent := outer, outerIndents := rest }
    else s

def unroll (s : Scanner) (column : Int) : Scanner :=
  if s.inFlow then s else closeBlocks column s.outerIndents s

/-- Opens a block at a column that is right of the innermost one; its token goes to `place`. -/
def roll (s : Scanner) (column place : Nat) (opening : Token) : Scanner :=
  if !s.inFlow && s.indent < column then
    { s.insertAt place #[opening] with
      indent := column
      outerIndents := s.indent :: s.outerIndents }
  else s

/-! ## Tokens -/

/-- Goes past blanks, comments and breaks in at most so many steps. A tab is a blank only where no
key may begin. -/
def skipGapWithin : Nat → Scanner → Scanner
  | 0, s => s
  | steps + 1, s =>
    let c := s.cursor
    let c := if c.index = 0 ∧ c.head? = some byteOrderMark then c.advance 1 else c
    let c := c.skipWhile fun x => x == ' ' || (x == '\t' && (s.inFlow || !s.keyAllowed))
    let c := c.skipComment
    if c.head?.any isBreak then
      skipGapWithin steps
        { s with cursor := c.readBreak.2, keyAllowed := s.keyAllowed || !s.inFlow }
    else { s with cursor := c }

def skipGap (s : Scanner) : Scanner := skipGapWithin (s.cursor.rest.length + 1) s

/-- The end of a text closes all blocks. -/
def endStream? (s : Scanner) : Option Scanner := do
  let s := s.unroll (-1)
  let s ← s.dropCandidate?
  return { s with keyAllowed := false }.push .streamEnd

/-- A token at the beginning of a line that closes all blocks. -/
def outermost? (s : Scanner) : Option Scanner := do
  let s ← (s.unroll (-1)).dropCandidate?
  return { s with keyAllowed := false }

def directive? (s : Scanner) : Option Scanner := do
  let s ← s.outermost?
  let (token, cursor) ← directiveToken? s.cursor
  return { s with cursor }.push token

def documentMark? (s : Scanner) (token : Token) : Option Scanner := do
  let s ← s.outermost?
  return (s.advance 3).push token

def openBracket? (s : Scanner) (token : Token) : Option Scanner := do
  let s ← s.offerCandidate?
  return { s.advance 1 with
    outerCandidates := s.candidate :: s.outerCandidates
    candidate := none
    depth := s.depth + 1
    keyAllowed := true }.push token

def closeBracket? (s : Scanner) (token : Token) : Option Scanner := do
  let s ← s.dropCandidate?
  let s := { s.advance 1 with keyAllowed := false }
  match s.outerCandidates with
  | [] => return s.push token
  | candidate :: outerCandidates =>
    return { s with candidate, outerCandidates, depth := s.depth - 1 }.push token

def flowEntry? (s : Scanner) : Option Scanner := do
  let s ← s.dropCandidate?
  return { s.advance 1 with keyAllowed := true }.push .flowEntry

/-- An indicator that opens a block where none is open at its column. -/
def blockIndicator? (s : Scanner) (opening : Token) : Option Scanner :=
  if s.inFlow then some s
  else if s.keyAllowed then some (s.roll s.cursor.column s.tokens.size opening)
  else none

def blockEntry? (s : Scanner) : Option Scanner := do
  let s ← s.blockIndicator? .blockSequenceStart
  let s ← s.dropCandidate?
  return { s.advance 1 with keyAllowed := true }.push .blockEntry

def key? (s : Scanner) : Option Scanner := do
  let s ← s.blockIndicator? .blockMappingStart
  let s ← s.dropCandidate?
  return { s.advance 1 with keyAllowed := !s.inFlow }.push .key

/-- A colon makes the candidate a key, and may open a block mapping at its column. -/
def value? (s : Scanner) : Option Scanner := do
  match s.candidate with
  | some k =>
    let s := (s.insertAt k.place #[.key]).roll k.column k.place .blockMappingStart
    return { s.advance 1 with candidate := none, keyAllowed := false }.push .value
  | none =>
    let s ← s.blockIndicator? .blockMappingStart
    return { s.advance 1 with keyAllowed := !s.inFlow }.push .value

/-- A token that may become a key. -/
def offered? (s : Scanner) (read : Cursor → Option (Token × Cursor)) : Option Scanner := do
  let s ← s.offerCandidate?
  let (token, cursor) ← read s.cursor
  return { s with cursor, keyAllowed := false }.push token

def anchor? (s : Scanner) (token : String → Token) : Option Scanner :=
  s.offered? fun c => (anchorName? c).map fun (name, c) => (token name, c)

def quotedScalar? (s : Scanner) (quote : Char) (style : Style) : Option Scanner :=
  s.offered? fun c =>
    (quoted? quote c).map fun r => (.scalar (String.ofList r.text) style, r.next)

def blockScalar? (s : Scanner) (folded : Bool) : Option Scanner := do
  let s ← s.dropCandidate?
  let r ← block? folded s.indent (s.cursor.advance 1)
  let style := if folded then Style.folded else .literal
  return { s with cursor := r.next, keyAllowed := true }.push
    (.scalar (String.ofList r.text) style)

def plainScalar? (s : Scanner) : Option Scanner := do
  let s ← s.offerCandidate?
  let r ← plain? s.inFlow (s.indent + 1) s.cursor
  return { s with cursor := r.next, keyAllowed := r.broken }.push
    (.scalar (String.ofList r.text) .plain)

/-- Characters with which no plain scalar begins, unless something special follows. -/
def indicators : List Char :=
  ['-', '?', ':', ',', '[', ']', '{', '}', '#', '&', '*', '!', '|', '>', '\'', '"', '%', '@',
    Char.ofNat 0x60]

/-- Whether a plain scalar begins with `x`, given the character after it. -/
def beginsPlain (s : Scanner) (x : Char) (after : Option Char) : Bool :=
  (!isGap (some x) && x ∉ indicators) || (x == '-' && !after.any isSpaceOrTab) ||
    (!s.inFlow && (x == '?' || x == ':') && !isGap after)

/-- Reads the token that begins with `x`. -/
def tokenAt? (s : Scanner) (x : Char) : Option Scanner :=
  let after := s.cursor.ahead? 1
  let separates := s.inFlow || isGap after
  if s.cursor.column = 0 ∧ x = '%' then s.directive?
  else if s.cursor.atMark '-' then s.documentMark? .documentStart
  else if s.cursor.atMark '.' then s.documentMark? .documentEnd
  else if x = '[' then s.openBracket? .flowSequenceStart
  else if x = '{' then s.openBracket? .flowMappingStart
  else if x = ']' then s.closeBracket? .flowSequenceEnd
  else if x = '}' then s.closeBracket? .flowMappingEnd
  else if x = ',' then s.flowEntry?
  else if x = '-' ∧ isGap after then s.blockEntry?
  else if x = '?' ∧ separates then s.key?
  else if x = ':' ∧ separates then s.value?
  else if x = '*' then s.anchor? .alias
  else if x = '&' then s.anchor? .anchor
  else if x = '!' then s.offered? fun c => tagToken? c s.inFlow
  else if x = '|' ∧ !s.inFlow then s.blockScalar? false
  else if x = '>' ∧ !s.inFlow then s.blockScalar? true
  else if x = '\'' then s.quotedScalar? '\'' .singleQuoted
  else if x = '"' then s.quotedScalar? '"' .doubleQuoted
  else if s.beginsPlain x after then s.plainScalar?
  else none

/-- Reads the next token, with the tokens for blocks that end before it. -/
def next? (s : Scanner) : Option Scanner := do
  let s ← s.skipGap.settle?
  match s.cursor.head? with
  | none => s.endStream?
  | some x => (s.unroll s.cursor.column).tokenAt? x

end Scanner

namespace Token

/-- Reads tokens to the end or to the first fault. Of a text with a fault the `settled` tokens
count, those that were settled when it was met. -/
def readWithin : Nat → (settled : Nat) → Scanner → List Token
  | 0, settled, s => s.tokens.toList.take settled
  | steps + 1, settled, s =>
    match s.settle? with
    | none => s.tokens.toList.take settled
    | some s =>
      match s.next? with
      | none => s.tokens.toList.take s.settled
      | some next =>
        if next.tokens.back? = some .streamEnd then next.tokens.toList
        else readWithin steps s.settled next

/-- The tokens that a text delivers; the last is the end of the stream unless there is a fault. A
text with a character that is not allowed delivers none. -/
def ofText (text : String) : List Token :=
  let cs := text.toList
  if cs.all isAllowed then readWithin (cs.length + 2) 0 { cursor := { rest := cs } } else []

end Token

end ApiLint.Yaml
