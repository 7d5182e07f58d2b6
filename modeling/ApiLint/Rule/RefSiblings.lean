import ApiLint.Document.Walk
import ApiLint.Rule.Function

/-!
# Keys beside a reference

A reference stands for what it points to, so other keys of its object are ignored. Each of them is
reported, except those that the option `allowedSiblings` lists. A member named `$ref` that is no
text is no reference.
-/

namespace ApiLint.Rule.RefSiblings

def option : String := "allowedSiblings"

def referenceKey : String := "$ref"

/-- The diagnostics about the keys of one object. -/
def ofNode (allowed : List String) (node : Json) (path : Path) : List Diagnostic :=
  if (node.strAt? referenceKey).isSome then
    (node.members?.getD []).filterMap fun (key, _) =>
      if key ≠ referenceKey ∧ key ∉ allowed then
        some ⟨s!"'{key}' is ignored beside $ref", path.member key⟩
      else none
  else []

def diagnostics (allowed : List String) (target : Json) (path : Path) : List Diagnostic :=
  (Document.containers target).flatMap fun visit =>
    ofNode allowed visit.node (path.join visit.steps)

def function : RuleFunction where
  name := "ref-siblings"
  check target options site := do
    let allowed ← optionalTexts options option site
    pure (diagnostics allowed target site.path)

end ApiLint.Rule.RefSiblings
