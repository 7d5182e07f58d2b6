import ApiLint.Json.Token
import ApiLint.Yaml.Cursor

/-!
# Scalars in a YAML text

A scalar may go over several lines. Inside it, a single break becomes a space, and of several
breaks the first is dropped. Reading fails with nothing where a scalar is not well formed.
-/

namespace ApiLint.Yaml

inductive Style where
  | plain
  | singleQuoted
  | doubleQuoted
  | literal
  | folded
deriving DecidableEq

/-! ## Gaps inside a scalar -/

/-- Blanks and breaks between two parts of a scalar. Blanks before the first break and after any
break do not count. -/
structure Gap where
  /-- Whether there was a break. -/
  broken : Bool := false
  blanks : List Char := []
  firstBreak : List Char := []
  moreBreaks : List Char := []

/-- What a gap leaves between the parts. -/
def Gap.folded (gap : Gap) : List Char :=
  if !gap.broken then gap.blanks
  else if gap.firstBreak = ['\n'] then if gap.moreBreaks.isEmpty then [' '] else gap.moreBreaks
  else gap.firstBreak ++ gap.moreBreaks

/-- Reads a gap in at most so many steps. A tab left of `indent` in a new line is a fault. -/
def Gap.readWithin (indent : Int) : Nat → Gap → Cursor → Option (Gap × Cursor)
  | 0, gap, c => some (gap, c)
  | steps + 1, gap, c =>
    match c.head? with
    | none => some (gap, c)
    | some x =>
      if isSpaceOrTab x then
        if gap.broken then
          if x = '\t' ∧ c.column < indent then none else gap.readWithin indent steps (c.advance 1)
        else readWithin indent steps { gap with blanks := gap.blanks ++ [x] } (c.advance 1)
      else if isBreak x then
        let (read, c) := c.readBreak
        if gap.broken then
          readWithin indent steps { gap with moreBreaks := gap.moreBreaks ++ read } c
        else readWithin indent steps { broken := true, firstBreak := read } c
      else some (gap, c)

def Gap.read (gap : Gap) (indent : Int) (c : Cursor) : Option (Gap × Cursor) :=
  gap.readWithin indent c.rest.length c

/-- A scalar that has been read, and the cursor behind it. -/
structure Scanned where
  text : List Char
  /-- Whether the cursor has gone to another line after the last part of a plain scalar. -/
  broken : Bool := false
  next : Cursor

/-! ## Plain scalars -/

/-- Characters that end a plain scalar inside brackets. -/
def flowIndicators : List Char := [',', '[', ']', '{', '}']

/-- The characters of a plain scalar up to a gap or to what ends it. Inside brackets a colon must
not stand right before an indicator. -/
def plainPart? (inFlow : Bool) : List Char → Option (List Char)
  | [] => some []
  | c :: rest =>
    if isGap (some c) then some []
    else if c = ':' then
      if inFlow ∧ rest.head?.any (fun d => d ∈ '?' :: flowIndicators) then none
      else if isGap rest.head? then some []
      else (c :: ·) <$> plainPart? inFlow rest
    else if inFlow ∧ c ∈ flowIndicators then some []
    else (c :: ·) <$> plainPart? inFlow rest

/-- Reads on in a plain scalar, after a gap. -/
def plainWithin (inFlow : Bool) (indent : Int) :
    Nat → List Char → Gap → Cursor → Option Scanned
  | 0, text, gap, c => some ⟨text, gap.broken, c⟩
  | steps + 1, text, gap, c => do
    if c.atDocumentMark ∨ c.head? = some '#' then return ⟨text, gap.broken, c⟩
    let part ← plainPart? inFlow c.rest
    if part.isEmpty then return ⟨text, gap.broken, c⟩
    let text := text ++ gap.folded ++ part
    let c := c.advance part.length
    if !isGap c.head? then return ⟨text, false, c⟩
    let (gap, c) ← Gap.read {} indent c
    if !inFlow ∧ c.column < indent then return ⟨text, gap.broken, c⟩
    plainWithin inFlow indent steps text gap c

/-- Reads a plain scalar; outside brackets its lines are indented at least by `indent`. -/
def plain? (inFlow : Bool) (indent : Int) (c : Cursor) : Option Scanned :=
  plainWithin inFlow indent (c.rest.length + 1) [] {} c

/-! ## Quoted scalars -/

/-- A part of a quoted scalar: its text, its length as written, and whether an escaped break ends
it. -/
structure QuotedPart where
  text : List Char
  length : Nat
  escapedBreak : Bool := false

def QuotedPart.cons (c : Char) (length : Nat) (part : QuotedPart) : QuotedPart :=
  { part with text := c :: part.text, length := length + part.length }

/-- The characters between single quotes up to a gap or the closing quote. -/
def singleQuotedPart : List Char → QuotedPart
  | [] => ⟨[], 0, false⟩
  | '\'' :: '\'' :: rest => (singleQuotedPart rest).cons '\'' 2
  | '\'' :: _ => ⟨[], 0, false⟩
  | c :: rest => if isGap (some c) then ⟨[], 0, false⟩ else (singleQuotedPart rest).cons c 1

/-- What a one-letter escape stands for. -/
def escapes : List (Char × Nat) :=
  [('0', 0x00), ('a', 0x07), ('b', 0x08), ('t', 0x09), ('\t', 0x09), ('n', 0x0A), ('v', 0x0B),
    ('f', 0x0C), ('r', 0x0D), ('e', 0x1B), (' ', 0x20), ('"', 0x22), ('/', 0x2F), ('\\', 0x5C),
    ('N', 0x85), ('_', 0xA0), ('L', 0x2028), ('P', 0x2029)]

/-- The character with a code point, if there is one. -/
def charOfCode? (code : Nat) : Option Char :=
  if h : code.isValidChar then some (Char.ofNatAux code h) else none

/-- The character that hexadecimal digits stand for. -/
def hexChar? (digits : List Char) : Option Char := (Json.hexNumber? digits).bind charOfCode?

/-- The characters between double quotes up to a gap, an escaped break or the closing quote. -/
def doubleQuotedPart? : List Char → Option QuotedPart
  | [] => some ⟨[], 0, false⟩
  | '"' :: _ => some ⟨[], 0, false⟩
  | '\\' :: 'x' :: a :: b :: rest => do
    let c ← hexChar? [a, b]
    (·.cons c 4) <$> doubleQuotedPart? rest
  | '\\' :: 'u' :: a :: b :: d :: e :: rest => do
    let c ← hexChar? [a, b, d, e]
    (·.cons c 6) <$> doubleQuotedPart? rest
  | '\\' :: 'U' :: a :: b :: d :: e :: f :: g :: h :: i :: rest => do
    let c ← hexChar? [a, b, d, e, f, g, h, i]
    (·.cons c 10) <$> doubleQuotedPart? rest
  | '\\' :: c :: rest =>
    if isBreak c then some ⟨[], 1, true⟩
    else do
      let code ← escapes.lookup c
      (·.cons (Char.ofNat code) 2) <$> doubleQuotedPart? rest
  | ['\\'] => none
  | c :: rest =>
    if isGap (some c) then some ⟨[], 0, false⟩ else (·.cons c 1) <$> doubleQuotedPart? rest

def quotedPart? (quote : Char) (cs : List Char) : Option QuotedPart :=
  if quote = '"' then doubleQuotedPart? cs else some (singleQuotedPart cs)

/-- Reads on in a quoted scalar. No document may begin or end inside it. -/
def quotedWithin (quote : Char) : Nat → List Char → Cursor → Option Scanned
  | 0, _, _ => none
  | steps + 1, text, c => do
    if c.atDocumentMark ∨ c.rest.isEmpty then none
    let part ← quotedPart? quote c.rest
    let text := text ++ part.text
    let c := c.advance part.length
    let c := if part.escapedBreak then c.readBreak.2 else c
    if c.head? = some quote then return ⟨text, false, c.advance 1⟩
    let (gap, c) ← Gap.read { broken := part.escapedBreak } 0 c
    quotedWithin quote steps (text ++ gap.folded) c

/-- Reads a quoted scalar, beginning at its quote. -/
def quoted? (quote : Char) (c : Cursor) : Option Scanned :=
  quotedWithin quote (c.rest.length + 1) [] (c.advance 1)

/-! ## Block scalars -/

/-- What becomes of the breaks at the end of a block scalar. -/
inductive Chomp where
  | strip
  | clip
  | keep
deriving DecidableEq

def chomp? : Option Char → Option Chomp
  | some '-' => some .strip
  | some '+' => some .keep
  | _ => none

/-- The chomping sign and the indentation of a block scalar, in either order. An indentation of
zero is a fault. -/
def blockHeader? (c : Cursor) : Option (Chomp × Nat × Cursor) := do
  let sign (c : Cursor) : Chomp × Cursor :=
    match chomp? c.head? with
    | some chomp => (chomp, c.advance 1)
    | none => (.clip, c)
  let width (c : Cursor) : Option (Nat × Cursor) :=
    match c.head? with
    | some '0' => none
    | some d => if d.isDigit then some (d.toNat - '0'.toNat, c.advance 1) else some (0, c)
    | none => some (0, c)
  match chomp? c.head? with
  | some chomp =>
    let (width, c) ← width (c.advance 1)
    return (chomp, width, c)
  | none =>
    let (width, c) ← width c
    if width = 0 then return (.clip, 0, c)
    let (chomp, c) := sign c
    return (chomp, width, c)

/-- The breaks before the next line with content, and the greatest column that was reached. -/
structure BlockGap where
  breaks : List Char := []
  greatest : Nat := 0

/-- Reads empty lines. While the indentation is not known, it counts as zero here. -/
def BlockGap.readWithin (indent : Nat) : Nat → BlockGap → Cursor → Option (BlockGap × Cursor)
  | 0, gap, c => some (gap, c)
  | steps + 1, gap, c => do
    let inside (column : Nat) : Bool := indent = 0 || column < indent
    let spaces := c.rest.takeWhile (· = ' ')
    let count := if indent = 0 then spaces.length else min spaces.length (indent - c.column)
    let c := c.advance count
    let gap := { gap with greatest := max gap.greatest c.column }
    if inside c.column ∧ c.head? = some '\t' then none
    if !c.head?.any isBreak then return (gap, c)
    let (read, c) := c.readBreak
    readWithin indent steps { gap with breaks := gap.breaks ++ read } c

def BlockGap.read (indent : Nat) (c : Cursor) : Option (BlockGap × Cursor) :=
  BlockGap.readWithin indent (c.rest.length + 1) {} c

/-- What has been read of a block scalar before a line. -/
structure BlockState where
  text : List Char := []
  lastBreak : List Char := []
  breaks : List Char
  /-- Whether the last line begins with a blank. -/
  indented : Bool := false

/-- The text before a line; in folded style a break between two lines that are not indented
becomes a space, or goes away before empty lines. -/
def BlockState.joined (folded indented : Bool) (state : BlockState) : List Char :=
  let first :=
    if folded ∧ state.lastBreak = ['\n'] ∧ !state.indented ∧ !indented then
      if state.breaks.isEmpty then [' '] else []
    else state.lastBreak
  state.text ++ first ++ state.breaks

/-- Reads the lines of a block scalar. -/
def blockLines (folded : Bool) (indent : Nat) :
    Nat → BlockState → Cursor → Option (BlockState × Cursor)
  | 0, state, c => some (state, c)
  | steps + 1, state, c => do
    if c.column ≠ indent ∨ c.rest.isEmpty then return (state, c)
    let indented := c.head?.any isSpaceOrTab
    let text := state.joined folded indented
    let (line, c) := c.span (!isBreak ·)
    let (lastBreak, c) := c.readBreak
    let (gap, c) ← BlockGap.read indent c
    blockLines folded indent steps ⟨text ++ line, lastBreak, gap.breaks, indented⟩ c

/-- Reads a block scalar behind its indicator, inside a block that is indented by `parent`. -/
def block? (folded : Bool) (parent : Int) (c : Cursor) : Option Scanned := do
  let (chomp, width, c) ← blockHeader? c
  let c := (c.skipWhile isSpaceOrTab).skipComment
  if !(c.rest.isEmpty || c.head?.any isBreak) then none
  let (_, c) := c.readBreak
  let given := if width = 0 then 0 else ((max parent 0) + width).toNat
  let (gap, c) ← BlockGap.read given c
  let indent := if given = 0 then max gap.greatest (max (parent + 1) 1).toNat else given
  let (state, c) ← blockLines folded indent (c.rest.length + 1) { breaks := gap.breaks } c
  let ending :=
    match chomp with
    | .strip => []
    | .clip => state.lastBreak
    | .keep => state.lastBreak ++ state.breaks
  return ⟨state.text ++ ending, false, c⟩

end ApiLint.Yaml
