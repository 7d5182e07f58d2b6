import ApiLint.Rule.Function
import ApiLint.Schema.Kind
import ApiLint.Schema.Traversal

/-!
# Arrays of arrays

Reports the items of an array schema that describe arrays again, where they are written: in the
schema itself or in one of its branches.
-/

namespace ApiLint.Rule.ArrayOfArrays

open Schema

def message : String := "Array schemas should avoid having items of type array"

/-- The diagnostic about the items of one node. -/
def ofNode (node : Json) (path : Path) : List Diagnostic :=
  if (node.get? "items").any Kind.array.covers then [⟨message, path.member "items"⟩] else []

/-- The diagnostics about a schema and its branches. -/
def ofSchema (schema : Json) (path : Path) : List Diagnostic :=
  if Kind.array.covers schema then
    (composedVisits true false schema).flatMap fun visit => ofNode visit.node (visit.path path)
  else []

def diagnostics (target : Json) (path : Path) : List Diagnostic :=
  (nestedVisits true false target).flatMap fun visit => ofSchema visit.node (visit.path path)

def function : RuleFunction where
  name := "array-of-arrays"
  check target _ site := pure (diagnostics target site.path)

end ApiLint.Rule.ArrayOfArrays
