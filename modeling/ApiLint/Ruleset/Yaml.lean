import ApiLint.Rule.Error
import ApiLint.Ruleset.Decode
import ApiLint.Yaml.Reading

/-!
# Rulesets in YAML

The text has to be one document. What the document begins with is read even if it has a fault
further on, so the first problem in the text is the one that is reported.
-/

namespace ApiLint.Ruleset

/-- The ruleset of a YAML text. -/
def ofYamlText (text : String) : Except ConfigError Ruleset :=
  let document := Yaml.Document.ofText text
  match document.decode Ruleset.decode with
  | .ok ruleset => if document.alone then pure ruleset else throw (.parse "YAML" none)
  | .error problem => throw (.parse "YAML" problem.message?)

end ApiLint.Ruleset
