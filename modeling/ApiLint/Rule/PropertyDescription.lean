import ApiLint.Rule.Function
import ApiLint.Schema.Traversal
import ApiLint.Text

/-!
# Described properties

Reports properties without a description that is more than blanks. An `allOf` branch may describe
a property; alternatives describe it only when each of them does.
-/

namespace ApiLint.Rule.PropertyDescription

open Schema

def isDescribed (node : Json) : Bool := (node.strAt? "description").any (!Text.isBlank ·)

/-- Whether a path ends in an entry of a `properties` map. -/
def isPropertyPath (path : Path) : Bool := path.parentKey? == some propertiesKeyword

def ofVisit (node : Json) (path logical : Path) : List Diagnostic :=
  if !isPropertyPath path || lift .strict isDescribed node then []
  else [⟨s!"Schema property '{logical.dotted}' should have a non-empty description", path⟩]

def diagnostics (target : Json) (path : Path) : List Diagnostic :=
  (nestedVisits true false target).flatMap fun visit =>
    ofVisit visit.node (visit.path path) visit.logical

def function : RuleFunction where
  name := "property-description"
  check target _ site := pure (diagnostics target site.path)

end ApiLint.Rule.PropertyDescription
