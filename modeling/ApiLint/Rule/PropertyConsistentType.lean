import ApiLint.Rule.Function
import ApiLint.Schema.Traversal
import ApiLint.Table

/-!
# Properties of one type

Reports properties to which a schema and its `allOf` branches give different types. All of these
hold at once, so no value could have such a property. Alternatives may disagree with each other;
each is looked at on its own.
-/

namespace ApiLint.Rule.PropertyConsistentType

open Schema

/-- The type that one node gives to a property. -/
def ownType? (node : Json) (name : String) : Option String :=
  ((node.get? propertiesKeyword).bind (·.get? name)).bind (·.strAt? "type")

/-- The types that a schema and its `allOf` branches give to a property, repetitions included. -/
def declaredTypes (name : String) (schema : Json) : List String :=
  (ownType? schema name).toList ++
    (Applicator.allOf.branches schema).attach.flatMap fun ⟨branch, _⟩ => declaredTypes name branch
termination_by sizeOf schema
decreasing_by exact Applicator.sizeOf_lt_of_mem_branches ‹_›

/-- The different texts of a list, in order. -/
def distinct (texts : List String) : List String := (Table.ofList (texts.map fun t => (t, ()))).keys

/-- Whether a path ends in an element of an `allOf` list. -/
def isAllOfBranch (path : Path) : Bool := path.parentKey? == some Applicator.allOf.keyword

/-- One diagnostic for each property that gets more than one type. -/
def conflicts (schema : Json) (path logical : Path) : List Diagnostic :=
  (propertyNames schema).filterMap fun name =>
    let types := distinct (declaredTypes name schema)
    if 1 < types.length then
      some ⟨s!"Property '{(logical.member name).dotted}' is declared with conflicting types: " ++
        ", ".intercalate types, path⟩
    else none

/-- The diagnostics about a schema and its branches. What stands in an `allOf` list has been
looked at together with the schema that holds the list. -/
def ofSchema (schema : Json) (path logical : Path) : List Diagnostic :=
  (composedVisits true false schema).flatMap fun visit =>
    if isAllOfBranch (visit.path path) then []
    else conflicts visit.node (visit.path path) logical

def diagnostics (target : Json) (path : Path) : List Diagnostic :=
  (nestedVisits true false target).flatMap fun visit =>
    ofSchema visit.node (visit.path path) visit.logical

def function : RuleFunction where
  name := "property-consistent-type"
  check target _ site := pure (diagnostics target site.path)

end ApiLint.Rule.PropertyConsistentType
