import ApiLint.Rule.Function
import ApiLint.Schema.Traversal

/-!
# Superfluous `allOf`

Reports schemas whose only keyword is an `allOf` of one branch: they say no more than the branch.
-/

namespace ApiLint.Rule.SuperfluousAllOf

open Schema

/-- Whether a node is nothing but an `allOf` of one branch. -/
def isWrapper (node : Json) : Bool :=
  (Applicator.allOf.branches node).length == 1 && (node.members?.getD []).length == 1

def diagnostics (target : Json) (path : Path) : List Diagnostic :=
  (composedVisits true true target).filterMap fun visit =>
    if isWrapper visit.node then
      some ⟨"allOf with a single schema and no sibling keywords is superfluous",
        (visit.path path).member Applicator.allOf.keyword⟩
    else none

def function : RuleFunction where
  name := "superfluous-allof"
  check target _ site := pure (diagnostics target site.path)

end ApiLint.Rule.SuperfluousAllOf
