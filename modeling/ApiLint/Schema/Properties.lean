import ApiLint.Schema.Composition
import ApiLint.Table

/-!
# Properties of a composed schema

A property is guaranteed when every resolution of the composition defines it (`defines`,
`requires`). The names and fragments listed here are those of any branch at all: they say which
properties may appear.
-/

namespace ApiLint.Schema

def propertiesKeyword : String := "properties"

/-- The entries of the `properties` map of one node. -/
def ownProperties (node : Json) : List (String × Json) := node.membersAt propertiesKeyword

/-- Whether the `required` list of one node has the name. -/
def lists (name : String) (node : Json) : Bool :=
  (node.itemsAt "required").any (·.str? == some name)

/-- Whether a schema guarantees a definition of the property. -/
def defines (schema : Json) (name : String) : Bool :=
  lift .strict (fun node => (ownProperties node).any (·.1 == name)) schema

/-- Whether a schema guarantees that the property is required, and a definition of it. -/
def requires (schema : Json) (name : String) : Bool :=
  lift .strict (lists name) schema && defines schema name

/-! ## Names -/

/-- Adds a name that is not there yet. -/
def addName (names : List String) (name : String) : List String :=
  if name ∈ names then names else names ++ [name]

/-- Adds the names of the properties of a schema that pass the test, its own before those of its
branches. -/
def addPropertyNames (keep : String → Json → Bool) (names : List String) (schema : Json) :
    List String :=
  if schema.isObj then
    let own := (ownProperties schema).foldl
      (fun names (name, property) => if keep name property then addName names name else names)
      names
    (branches schema).attach.foldl (fun names ⟨branch, _⟩ => addPropertyNames keep names branch) own
  else names
termination_by sizeOf schema
decreasing_by exact sizeOf_lt_of_mem_branches ‹_›

/-- The names of the properties for which some fragment passes the test, in first-seen order. -/
def propertyNamesWhere (keep : String → Json → Bool) (schema : Json) : List String :=
  addPropertyNames keep [] schema

/-- The names of all properties that a schema or one of its branches defines. -/
def propertyNames (schema : Json) : List String := propertyNamesWhere (fun _ _ => true) schema

/-! ## Fragments -/

/-- Adds a fragment after those of the same name. -/
def addFragment (found : Table (List Json)) (name : String) (fragment : Json) :
    Table (List Json) :=
  found.update name fun fragments => fragments.getD [] ++ [fragment]

/-- Adds the fragments of a schema, its own before those of its branches. -/
def addPropertyFragments (found : Table (List Json)) (schema : Json) : Table (List Json) :=
  if schema.isObj then
    let own := (ownProperties schema).foldl
      (fun found (name, fragment) => addFragment found name fragment) found
    (branches schema).attach.foldl (fun found ⟨branch, _⟩ => addPropertyFragments found branch) own
  else found
termination_by sizeOf schema
decreasing_by exact sizeOf_lt_of_mem_branches ‹_›

/-- For each property name, the fragments that define it: the schema's own before those of its
branches. -/
def propertyFragments (schema : Json) : Table (List Json) := addPropertyFragments .empty schema

end ApiLint.Schema
