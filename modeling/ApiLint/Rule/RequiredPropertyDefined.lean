import ApiLint.Rule.Function
import ApiLint.Schema.Traversal

/-!
# Required properties that are defined

Reports required names that neither the branch that requires them nor the schema around it
defines.
-/

namespace ApiLint.Rule.RequiredPropertyDefined

open Schema

/-- The diagnostics about the `required` list of a branch of a schema. -/
def ofBranch (schema branch : Json) (path : Path) : List Diagnostic :=
  (branch.itemsAt "required").zipIdx.filterMap fun (item, i) =>
    item.str?.bind fun name =>
      if defines branch name || defines schema name then none
      else
        some ⟨s!"Required property '{name}' is not defined in the schema",
          (path.member "required").element i⟩

/-- The diagnostics about a schema and its branches. -/
def ofSchema (schema : Json) (path : Path) : List Diagnostic :=
  (composedVisits true false schema).flatMap fun visit =>
    ofBranch schema visit.node (visit.path path)

def diagnostics (target : Json) (path : Path) : List Diagnostic :=
  (nestedVisits true false target).flatMap fun visit => ofSchema visit.node (visit.path path)

def function : RuleFunction where
  name := "required-property-defined"
  check target _ site := pure (diagnostics target site.path)

end ApiLint.Rule.RequiredPropertyDefined
