import ApiLint.Yaml.Scalar

/-!
# Nodes of a YAML document

Scalars, sequences and mappings as they are written, with aliases not yet replaced. A text with a
fault gives the nodes up to that fault: containers are not closed, and what is missing is broken.
-/

namespace ApiLint.Yaml

inductive Node where
  | scalar (tag : Option String) (text : String) (style : Style)
  | sequence (tag : Option String) (items : List Node) (closed : Bool)
  | mapping (tag : Option String) (members : List (Node × Node)) (closed : Bool)
  /-- Stands for the node that fills a slot. -/
  | alias (slot : Nat)
  /-- The content of a text without documents. -/
  | nothing
  /-- The text has a fault here, and nothing follows. -/
  | broken
deriving Inhabited

namespace Node

/-- What stands where nothing is written. -/
def empty : Node := .scalar none "" .plain

mutual

/-- Whether a node has no fault. -/
def isWhole : Node → Bool
  | .sequence _ items closed => closed && areWhole items
  | .mapping _ members closed => closed && areWholeMembers members
  | .broken => false
  | _ => true

def areWhole : List Node → Bool
  | [] => true
  | item :: rest => item.isWhole && areWhole rest

def areWholeMembers : List (Node × Node) → Bool
  | [] => true
  | (key, value) :: rest => key.isWhole && value.isWhole && areWholeMembers rest

end

mutual

/-- The number of scalars and aliases, and of beginnings and ends of containers. -/
def eventCount : Node → Nat
  | .sequence _ items closed => 1 + eventCounts items + closed.toNat
  | .mapping _ members closed => 1 + memberEventCounts members + closed.toNat
  | .broken => 0
  | _ => 1

def eventCounts : List Node → Nat
  | [] => 0
  | item :: rest => item.eventCount + eventCounts rest

def memberEventCounts : List (Node × Node) → Nat
  | [] => 0
  | (key, value) :: rest => key.eventCount + value.eventCount + memberEventCounts rest

end

end Node

end ApiLint.Yaml
