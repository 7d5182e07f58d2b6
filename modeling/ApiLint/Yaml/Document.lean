import ApiLint.Yaml.Grammar

/-!
# YAML documents

A document may begin with directives and a line of three dashes, and end with a line of three dots.
Of a text with several documents the first one counts, but it is not alone.
-/

namespace ApiLint.Yaml

/-- The first document of a text. -/
structure Document where
  root : Node
  /-- The nodes that aliases stand for, by slot. -/
  anchors : List (Nat × Node)
  /-- Whether the text has no fault and no other document. -/
  alone : Bool

namespace Document

open Build

/-- The meaning of tag handles where no directive gives another one. -/
def standardHandles : List (String × String) := [("!", "!"), ("!!", "tag:yaml.org,2002:")]

/-- Reads directives in at most so many steps. A version may be given once, and each handle once. -/
def directivesWithin : Nat → (versioned : Bool) → Build Unit
  | 0, _ => return ()
  | steps + 1, versioned => do
    match ← peek with
    | some (.versionDirective major minor) =>
      if versioned ∨ major ≠ 1 ∨ minor ∉ [1, 2] then stop
      else
        advance
        directivesWithin steps true
    | some (.tagDirective handle start) =>
      if ((← get).handles.lookup handle).isSome then stop
      else
        modify fun b => { b with handles := (handle, start) :: b.handles }
        advance
        directivesWithin steps versioned
    | _ => return ()

def directives : Build Unit := do
  directivesWithin (← get).tokens.length false
  modify fun b => { b with handles := b.handles ++ standardHandles }

def isDirective : Token → Bool
  | .versionDirective _ _ | .tagDirective _ _ => true
  | _ => false

/-- Builds a node in block position with as many steps as it may need. -/
def blockNode : Build Node := do node (enoughSteps (← get).tokens) true false

/-- Builds what follows the beginning of a document. -/
def content : Build Node := do
  match ← peek with
  | none => return .broken
  | some token =>
    if isDirective token ∨ token ∈ [.documentStart, .documentEnd, .streamEnd] then return .empty
    else blockNode

/-- Builds the root of the first document. -/
def firstRoot : Build Node := do
  match ← peek with
  | none => return .broken
  | some .streamEnd => return .nothing
  | some token =>
    directives
    if isDirective token ∨ token = .documentStart then
      if (← peek) = some .documentStart then
        advance
        content
      else
        stop
        return .broken
    else blockNode

/-- Whether nothing but marks of a document's end follows. -/
def endsHere : Build Bool := do
  modify fun b => { b with tokens := b.tokens.dropWhile (· = .documentEnd) }
  return (← peek) = some .streamEnd

def ofText (text : String) : Document :=
  let build : Build (Node × Bool) := do
    let root ← firstRoot
    return (root, ← endsHere)
  let ((root, alone), b) := build.run { tokens := Token.ofText text }
  let anchors := b.slots.filterMap fun (slot, number) =>
    (b.anchored.lookup number).map (slot, ·)
  { root, anchors, alone }

/-- The node that an alias stands for; aliases of aliases do not occur. -/
def anchored? (d : Document) (slot : Nat) : Option Node := d.anchors.lookup slot

/-- How many aliases may be followed. -/
def aliasLimit (d : Document) : Nat := 100 * d.root.eventCount

end Document

end ApiLint.Yaml
