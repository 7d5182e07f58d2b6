import ApiLint.Json.Equality
import ApiLint.Path.Basic
import ApiLint.Schema.Applicator

/-!
# Parts of a composed schema

The schemas that a schema is composed of, collected as parts with their place (`parts`) or through
a function of the nodes (`gather`). Equal parts and equal items are kept once, where they are seen
first.
-/

namespace ApiLint.Schema

/-! ## Items gathered from the nodes -/

/-- Adds the items that are not there yet. -/
def addNew {α : Type} [BEq α] (items new : List α) : List α :=
  new.foldl (fun items item => if items.contains item then items else items ++ [item]) items

/-- The schemas that a schema leads to at once: its negation, when wanted, and its branches. -/
def constituents (withNegation : Bool) (schema : Json) : List Json :=
  (if withNegation then (schema.get? negationKeyword).toList else []) ++ branches schema

theorem sizeOf_lt_of_mem_constituents {withNegation : Bool} {schema part : Json}
    (h : part ∈ constituents withNegation schema) : sizeOf part < sizeOf schema := by
  rcases List.mem_append.1 h with h | h
  · cases withNegation <;> simp at h
    exact Json.sizeOf_lt_of_get? h
  · exact sizeOf_lt_of_mem_branches h

/-- Adds the items of a schema, when wanted, and of all it is composed of. -/
def gatherInto {α : Type} [BEq α] (collect : Json → List α) (withNegation : Bool)
    (withSelf : Bool) (items : List α) (schema : Json) : List α :=
  if schema.isObj then
    let own := if withSelf then addNew items (collect schema) else items
    (constituents withNegation schema).attach.foldl
      (fun items ⟨part, _⟩ => gatherInto collect withNegation true items part) own
  else items
termination_by sizeOf schema
decreasing_by exact sizeOf_lt_of_mem_constituents ‹_›

/-- The items of a schema, when wanted, and of all it is composed of, each once. -/
def gather {α : Type} [BEq α] (collect : Json → List α) (withSelf withNegation : Bool)
    (schema : Json) : List α :=
  gatherInto collect withNegation withSelf [] schema

/-! ## Parts with their place -/

/-- A schema that another one is composed of. -/
structure Part where
  node : Json
  /-- Where the part is in the whole. -/
  path : Path
  /-- The keywords that lead to the part, the outermost first. -/
  via : List Applicator

/-- The keywords that lead to a part, with arrows between them. -/
def Part.chain (part : Part) : String := "->".intercalate (part.via.map Applicator.keyword)

/-- Adds a part unless an equal one is there. -/
def addPart (parts : List Part) (part : Part) : List Part :=
  if parts.any (·.node.same part.node) then parts else parts ++ [part]

/-- Adds the parts of a schema that pass the test, without the schema itself. -/
def addParts (keep : Json → Bool) (path : Path) (via : List Applicator) (parts : List Part)
    (schema : Json) : List Part :=
  if schema.isObj then
    (placedBranches schema).attach.foldl
      (fun parts ⟨((a, i), branch), _⟩ =>
        let path := (path.member a.keyword).element i
        let via := via ++ [a]
        let parts :=
          if branch.isObj && keep branch then addPart parts ⟨branch, path, via⟩ else parts
        addParts keep path via parts branch)
      parts
  else parts
termination_by sizeOf schema
decreasing_by exact sizeOf_lt_of_mem_placedBranches ‹_›

/-- The parts of a schema that pass the test; the schema itself, when wanted, comes first. -/
def parts (keep : Json → Bool) (withSelf : Bool) (schema : Json) : List Part :=
  let found := addParts keep .root [] [] schema
  if withSelf && schema.isObj && keep schema && !found.any (·.node.same schema) then
    ⟨schema, .root, []⟩ :: found
  else found

end ApiLint.Schema
