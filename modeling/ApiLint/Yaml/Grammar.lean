import ApiLint.Yaml.Node
import ApiLint.Yaml.TokenStream

/-!
# Nodes from tokens

A node has properties, an anchor and a tag, and content. In block position the content may be a
block container, and where a sequence need not be indented it begins with its first dash. At the
first token that does not fit, and where the tokens end, building stops.
-/

namespace ApiLint.Yaml

/-- What is left to read, and the anchors so far. -/
structure Builder where
  tokens : List Token
  /-- Whether a token did not fit, or was missing. -/
  stopped : Bool := false
  /-- Tag handles and what they stand for. -/
  handles : List (String × String) := []
  /-- The slots that anchor names stand for. -/
  names : List (String × Nat) := []
  /-- The numbers of the anchors that filled the slots, the last one first. -/
  slots : List (Nat × Nat) := []
  /-- The nodes of the anchors, by number. -/
  anchored : List (Nat × Node) := []

abbrev Build := StateM Builder

namespace Build

def stop : Build Unit := modify ({ · with stopped := true })

/-- The next token. Where there is none, building stops. -/
def peek : Build (Option Token) := do
  let b ← get
  match b.stopped, b.tokens with
  | false, token :: _ => return some token
  | _, _ => do
    stop
    return none

/-- Goes past a token. -/
def advance : Build Unit := modify fun b => { b with tokens := b.tokens.tail }

/-- Stops where `value` stands for a fault. -/
def orStop {α : Type} (value : Option α) : Build (Option α) := do
  if value.isNone then stop
  return value

/-! ## Properties -/

/-- Gives a slot to the anchor of a node that begins here: as many names as there are have a slot
already. A name that is used again moves to another slot. -/
def noteAnchor (name : String) : Build Nat := do
  let b ← get
  let slot := b.names.length
  let number := b.slots.length
  set { b with
    names := (name, slot) :: b.names.filter (·.1 ≠ name)
    slots := (slot, number) :: b.slots }
  return number

def noteNode (number : Nat) (node : Node) : Build Unit :=
  modify fun b => { b with anchored := (number, node) :: b.anchored }

/-- Builds the node of an anchor. -/
def anchoring (anchor : Option String) (build : Build Node) : Build Node := do
  match anchor with
  | none => build
  | some name => do
    let number ← noteAnchor name
    let node ← build
    noteNode number node
    return node

/-- An anchor and a tag. -/
structure Properties where
  anchor : Option String := none
  tag : Option (String × String) := none

def Properties.isEmpty (p : Properties) : Bool := p.anchor.isNone && p.tag.isNone

/-- Reads at most so many properties, each kind once. -/
def propertiesWithin : Nat → Properties → Build Properties
  | 0, p => return p
  | count + 1, p => do
    match ← peek with
    | some (.anchor name) =>
      if p.anchor.isSome then return p
      advance
      propertiesWithin count { p with anchor := some name }
    | some (.tag handle suffix) =>
      if p.tag.isSome then return p
      advance
      propertiesWithin count { p with tag := some (handle, suffix) }
    | _ => return p

def properties : Build Properties := propertiesWithin 2 {}

/-- The full form of a tag. Building stops at a handle that has no meaning. -/
def fullTag : Option (String × String) → Build (Option String)
  | none => return none
  | some ("", suffix) => return some suffix
  | some (handle, suffix) => do
    let start ← orStop ((← get).handles.lookup handle)
    return start.map (· ++ suffix)

/-- A lone exclamation mark is no tag of a scalar. -/
def scalarTag (tag : Option String) : Option String := tag.filter (· ≠ "!")

/-! ## Content -/

/-- An empty scalar before one of the tokens `ends`, and else what is built. -/
def emptyBefore (ends : List Token) (build : Build Node) : Build Node := do
  match ← peek with
  | none => return .broken
  | some token => if token ∈ ends then return .empty else build

/-- The value of a member: what is built behind a value indicator, and else an empty scalar. -/
def valueBefore (ends : List Token) (build : Build Node) : Build Node := do
  match ← peek with
  | none => return .broken
  | some .value => do
    advance
    emptyBefore ends build
  | some _ => return .empty

/-- Goes past the comma before an item of a flow container, unless the item is the first or the
container ends here. Gives the token behind it. -/
def separated (first : Bool) (ending : Token) : Build (Option Token) := do
  match ← peek with
  | none => return none
  | some token =>
    if first ∨ token = ending then return some token
    if token = .flowEntry then do
      advance
      peek
    else orStop none

/-- Whether reading goes on; a pair has no end of its own, but something must follow it. -/
def continues : Build Bool := return (← peek).isSome

mutual

/-- Builds the node that begins at the next token: in block position if `block`, and where a
sequence need not be indented if `indentless`. -/
def node : Nat → (block indentless : Bool) → Build Node
  | 0, _, _ => do
    stop
    return .broken
  | steps + 1, block, indentless => do
    if let some (.alias name) := ← peek then
      let slot ← orStop ((← get).names.lookup name)
      if slot.isSome then advance
      return slot.elim .broken .alias
    let p ← properties
    let tag ← fullTag p.tag
    match ← peek with
    | none => return .broken
    | some token =>
      if indentless ∧ token = .blockEntry then
        anchoring p.anchor do
          let (items, closed) ← indentlessItems steps
          return .sequence tag items closed
      else
        match token, block with
        | .scalar text style, _ =>
          anchoring p.anchor do
            advance
            return .scalar (scalarTag tag) text style
        | .flowSequenceStart, _ =>
          anchoring p.anchor do
            advance
            let (items, closed) ← flowItems steps true
            return .sequence tag items closed
        | .flowMappingStart, _ =>
          anchoring p.anchor do
            advance
            let (members, closed) ← flowMembers steps true
            return .mapping tag members closed
        | .blockSequenceStart, true =>
          anchoring p.anchor do
            advance
            let (items, closed) ← blockItems steps
            return .sequence tag items closed
        | .blockMappingStart, true =>
          anchoring p.anchor do
            advance
            let (members, closed) ← blockMembers steps
            return .mapping tag members closed
        | _, _ =>
          if p.isEmpty then do
            stop
            return .broken
          else anchoring p.anchor (return .scalar tag "" .plain)

/-- The items of a block sequence, and whether its end follows. -/
def blockItems : Nat → Build (List Node × Bool)
  | 0 => do
    stop
    return ([], false)
  | steps + 1 => do
    match ← peek with
    | some .blockEntry =>
      advance
      let item ← emptyBefore [.blockEntry, .blockEnd] (node steps true false)
      let (items, closed) ← blockItems steps
      return (item :: items, closed)
    | some .blockEnd =>
      advance
      return ([], true)
    | _ =>
      stop
      return ([], false)

/-- The items of a sequence that is not indented. It ends before the first token that is not a
dash. -/
def indentlessItems : Nat → Build (List Node × Bool)
  | 0 => do
    stop
    return ([], false)
  | steps + 1 => do
    match ← peek with
    | some .blockEntry =>
      advance
      let item ← emptyBefore [.blockEntry, .key, .value, .blockEnd] (node steps true false)
      let (items, closed) ← indentlessItems steps
      return (item :: items, closed)
    | token => return ([], token.isSome)

/-- The members of a block mapping, and whether its end follows. -/
def blockMembers : Nat → Build (List (Node × Node) × Bool)
  | 0 => do
    stop
    return ([], false)
  | steps + 1 => do
    match ← peek with
    | some .key =>
      advance
      let ends := [.key, .value, .blockEnd]
      let key ← emptyBefore ends (node steps true true)
      let value ← valueBefore ends (node steps true true)
      let (members, closed) ← blockMembers steps
      return ((key, value) :: members, closed)
    | some .blockEnd =>
      advance
      return ([], true)
    | _ =>
      stop
      return ([], false)

/-- The items of a flow sequence, and whether its end follows. A key among them is that of a
mapping with one member. -/
def flowItems : Nat → (first : Bool) → Build (List Node × Bool)
  | 0, _ => do
    stop
    return ([], false)
  | steps + 1, first => do
    match ← separated first .flowSequenceEnd with
    | none => return ([], false)
    | some .flowSequenceEnd =>
      advance
      return ([], true)
    | some token =>
      let item ←
        if token = .key then do
          advance
          pair steps
        else node steps false false
      let (items, closed) ← flowItems steps false
      return (item :: items, closed)

/-- A mapping with one member, in a flow sequence. Where the key is empty, the token that shows it
does not count any more. -/
def pair : Nat → Build Node
  | 0 => do
    stop
    return .broken
  | steps + 1 => do
    let key ←
      match ← peek with
      | none => pure .broken
      | some token =>
        if token ∈ [.value, .flowEntry, .flowSequenceEnd] then do
          advance
          pure .empty
        else node steps false false
    let value ← valueBefore [.flowEntry, .flowSequenceEnd] (node steps false false)
    return .mapping none [(key, value)] (← continues)

/-- The members of a flow mapping, and whether its end follows. -/
def flowMembers : Nat → (first : Bool) → Build (List (Node × Node) × Bool)
  | 0, _ => do
    stop
    return ([], false)
  | steps + 1, first => do
    match ← separated first .flowMappingEnd with
    | none => return ([], false)
    | some .flowMappingEnd =>
      advance
      return ([], true)
    | some .key =>
      advance
      let key ← emptyBefore [.value, .flowEntry, .flowMappingEnd] (node steps false false)
      let value ← valueBefore [.flowEntry, .flowMappingEnd] (node steps false false)
      let (members, closed) ← flowMembers steps false
      return ((key, value) :: members, closed)
    | some _ =>
      let key ← node steps false false
      let value : Node := if ← continues then .empty else .broken
      let (members, closed) ← flowMembers steps false
      return ((key, value) :: members, closed)

end

/-- The steps that are enough for so many tokens. -/
def enoughSteps (tokens : List Token) : Nat := 4 * (tokens.length + 1)

end Build

end ApiLint.Yaml
