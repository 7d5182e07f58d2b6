import ApiLint.Path.Basic
import ApiLint.Schema.Applicator

/-!
# Steps between schemas

The ways in which one schema stands inside another. A step has a place in the document, and most
steps also have a place in the values that the outer schema describes: the logical place. Branches
and negations describe the same value as the schema they stand in.
-/

namespace ApiLint.Schema

inductive Step where
  | property (name : String)
  | items
  | additional
  | pattern (regex : String)
  | branch (applicator : Applicator) (index : Nat)
  | negation
deriving DecidableEq

namespace Step

/-- What stands for any index in a logical place. -/
def anyItem : String := "[]"

/-- What stands for any key in a logical place. -/
def anyKey : String := "*"

/-- The place of the inner schema in the outer one. -/
def segments : Step → List Segment
  | .property name => [.key "properties", .key name]
  | .items => [.key "items"]
  | .additional => [.key "additionalProperties"]
  | .pattern regex => [.key "patternProperties", .key regex]
  | .branch applicator index => [.key applicator.keyword, .index index]
  | .negation => [.key negationKeyword]

/-- The place of the inner schema's values in those of the outer one. -/
def logical : Step → List Segment
  | .property name => [.key name]
  | .items => [.key anyItem]
  | .additional => [.key anyKey]
  | .pattern _ => [.key anyKey]
  | .branch _ _ => []
  | .negation => []

/-- Whether the inner schema describes the same value as the outer one. -/
def isComposition : Step → Bool
  | .branch _ _ => true
  | .negation => true
  | _ => false

def isBranch : Step → Bool
  | .branch _ _ => true
  | _ => false

end Step

end ApiLint.Schema
