import ApiLint.Decode.Reader
import ApiLint.Yaml.CoreSchema
import ApiLint.Yaml.Document

/-!
# Reading values from a YAML document

A fault is reported with the place of the value that has it. Aliases are replaced while reading, at
most so many of them, as nodes may contain themselves.
-/

namespace ApiLint.Yaml

/-- A fault, and the keys that lead to it; none at the root. -/
structure Problem where
  fault : Fault
  place : Option String

def Problem.message? (p : Problem) : Option String :=
  p.fault.message?.map fun text => p.place.elim text fun place => place ++ ": " ++ text

/-- A node in its document. -/
structure Located where
  node : Node
  /-- The place of the node, and that of the container around it. -/
  place : Option String := none
  outerPlace : Option String := none
  /-- How many containers may be nested from here. -/
  depth : Nat

/-- Reading counts the aliases that have been followed. -/
abbrev Reading := StateT Nat (Except Problem)

namespace Located

def fail {α : Type} (v : Located) (fault : Fault) : Reading α := throw ⟨fault, v.place⟩

/-- The key of a member of a container. -/
def keyed (v : Located) (key : Node) : Located := { v with node := key }

/-- The value of a member of a container. Its place has no name when the key is no scalar. -/
def valued (v : Located) (key value : Node) : Located :=
  let name :=
    match key with
    | .scalar _ text _ => text
    | _ => "?"
  { node := value
    place := some (v.place.elim name fun place => place ++ "." ++ name)
    outerPlace := v.place
    depth := v.depth - 1 }

/-! ## Aliases -/

/-- Replaces an alias by its node. -/
def follow (d : Document) (v : Located) : Reading Located := do
  match v.node with
  | .alias slot =>
    let followed ← get
    match d.anchored? slot with
    | some node =>
      if followed < d.aliasLimit then do
        set (followed + 1)
        return { v with node, outerPlace := v.place }
      else v.fail .malformed
    | none => v.fail .malformed
  | _ => return v

/-! ## Scalars -/

def text (d : Document) (v : Located) : Reading String := do
  match (← v.follow d).node with
  | .scalar _ text _ => return text
  | _ => v.fail .malformed

/-- A text, or nothing where an empty plain scalar or a null word stands. -/
def optionalText (d : Document) (v : Located) : Reading (Option String) := do
  match (← v.follow d).node with
  | .nothing => return none
  | .scalar none text .plain =>
    return if text.isEmpty || isNullWord text then none else some text
  | .scalar (some tag) text .plain =>
    if tag = coreTag "null" then if isNullWord text then return none else v.fail .malformed
    else return some text
  | .scalar _ text _ => return some text
  | _ => v.fail .malformed

/-- A truth value is a plain word, or a word in a literal block that is tagged as one. -/
def flag (d : Document) (v : Located) : Reading Bool := do
  match (← v.follow d).node with
  | .scalar tag text style =>
    if style = .plain ∨ (style = .literal ∧ tag = some (coreTag "bool")) then
      match flagOfWord? text with
      | some flag => return flag
      | none => v.fail .malformed
    else v.fail .malformed
  | _ => v.fail .malformed

/-- What a name stands for. -/
def chosen {α : Type} (place : Option String) (choices : Choices α) (name : String) : Reading α :=
  match choices.find name with
  | .ok value => pure value
  | .error fault => throw ⟨fault, place⟩

/-- The local tag of a node. -/
def localTag? (v : Located) : Option String :=
  match v.node with
  | .scalar tag _ _ | .sequence tag _ _ | .mapping tag _ _ => tag.bind Yaml.localTag?
  | _ => none

/-- A choice is a scalar with a name, or a local tag with the name and nothing behind it. A wrong
name in a tag is a fault of the container around it. -/
def choice {α : Type} (d : Document) (choices : Choices α) (v : Located) : Reading α := do
  let v ← v.follow d
  match v.localTag?, v.node with
  | some name, .scalar _ text style =>
    let value ← chosen v.outerPlace choices name
    if style = .plain ∧ (text.isEmpty || isNullWord text) then return value
    else v.fail .malformed
  | some name, _ => do
    let _ ← chosen v.outerPlace choices name
    v.fail .malformed
  | none, .scalar _ text _ => chosen v.place choices text
  | none, _ => v.fail .malformed

/-! ## Containers -/

/-- A value of any shape, given how the nodes inside are read. Where nothing is given for that,
containers would be nested too deeply. -/
def valueBy (d : Document) (inside : Option (Node → Reading Json)) (v : Located) :
    Reading Json := do
  let v ← v.follow d
  match inside, v.node, v.localTag? with
  | _, .scalar tag text style, _ =>
    match scalarValue? tag text style with
    | some value => return value
    | none => v.fail .malformed
  | some read, .sequence _ items true, none => return .arr (← items.mapM read)
  | some read, .mapping _ members true, none =>
    let members ← members.foldlM (fun done (key, value) => do
      let name ← (v.keyed key).text d
      let value ← read value
      return Json.insert done name value) []
    return .obj members
  | _, _, _ => v.fail .malformed

/-- A value of any shape, with at most `depth` containers in each other. -/
def valueWithin (d : Document) (place : Option String) : (depth : Nat) → Node → Reading Json
  | 0, node => valueBy d none { node, place, depth := 0 }
  | depth + 1, node =>
    valueBy d (some (valueWithin d place depth)) { node, place, depth := depth + 1 }

def any (d : Document) (v : Located) : Reading Json := valueWithin d v.place v.depth v.node

/-- Goes past a node. Aliases are not followed for that. -/
def skip (v : Located) : Reading Unit := if v.node.isWhole then pure () else v.fail .malformed

/-- The members of a mapping. Where a mapping is wanted, nothing and an empty plain scalar are an
empty one. -/
def record (d : Document) (v : Located) : Reading (Record Located) := do
  let v ← v.follow d
  match v.node with
  | .mapping _ members closed =>
    if v.depth = 0 then v.fail .malformed
    else return .named (members.map fun (key, value) => (v.keyed key, v.valued key value)) closed
  | .nothing | .scalar _ "" .plain => return .named [] true
  | _ => v.fail .malformed

end Located

def reader (d : Document) : Reader Located Reading where
  fail := Located.fail
  text := Located.text d
  optionalText := Located.optionalText d
  flag := Located.flag d
  choice := Located.choice d
  any := Located.any d
  skip := Located.skip
  record := Located.record d

/-- How many containers may be nested in a document. -/
def greatestDepth : Nat := 128

/-- What `read` makes of the root of a document. -/
def Document.decode {α : Type} (d : Document)
    (read : Reader Located Reading → Located → Reading α) : Except Problem α :=
  (read (reader d) { node := d.root, depth := greatestDepth }).run' 0

end ApiLint.Yaml
