import ApiLint.Rule.Function
import ApiLint.Schema.Kind
import ApiLint.Schema.Traversal

/-!
# Bounded strings

Reports plain string schemas without a `maxLength`. Enumerations and formatted strings have their
length fixed by other means.
-/

namespace ApiLint.Rule.StringBoundary

open Schema

def isUnbounded (node : Json) : Bool :=
  hasType node "string" && Kind.of? node == some .string && !node.has "maxLength"

def diagnostics (target : Json) (path : Path) : List Diagnostic :=
  (singleKindVisits target).filterMap fun visit =>
    if isUnbounded visit.node then
      some ⟨"String schemas should define 'maxLength'", visit.path path⟩
    else none

def function : RuleFunction where
  name := "string-boundary"
  check target _ site := pure (diagnostics target site.path)

end ApiLint.Rule.StringBoundary
