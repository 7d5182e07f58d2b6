import ApiLint.Diagnostic
import ApiLint.Document.Targets
import ApiLint.Json.Printer
import ApiLint.Rule.Error

/-!
# Rule functions

A rule function looks at one target, with the options of its rule, and answers with diagnostics,
or with an error when the options are wrong.
-/

namespace ApiLint

/-- Where a rule function runs. -/
structure Site where
  ruleId : String
  /-- The view of the document that the rule looks at. -/
  document : Json
  /-- Where the target is in the document. -/
  path : Path
  version : Version

namespace Site

/-- The site of a target in a document whose version has not been found out yet. -/
def of (ruleId : String) (document : Json) (path : Path) : Site :=
  ⟨ruleId, document, path, .detect document⟩

def missingOption (site : Site) (option : String) : RuleError :=
  .missingOption site.ruleId option

def invalidOption (site : Site) (option reason : String) : RuleError :=
  .invalidOption site.ruleId option reason

end Site

structure RuleFunction where
  name : String
  /-- Looks at a target, given the options of the rule. -/
  check : Json → Json → Site → Except RuleError (List Diagnostic)

/-! ## Options -/

/-- An option that must be there and be a text that is not empty. -/
def requiredText (options : Json) (name : String) (site : Site) : Except RuleError String :=
  match options.get? name with
  | none | some .null => throw (site.missingOption name)
  | some (.str "") => throw (site.invalidOption name "must not be empty")
  | some (.str text) => pure text
  | some other => throw (site.invalidOption name s!"expected a string, found {other.render}")

/-- The texts of a list of strings. -/
def textItems (name : String) (site : Site) : List Json → Except RuleError (List String)
  | [] => pure []
  | .str text :: rest => (text :: ·) <$> textItems name site rest
  | other :: _ => throw (site.invalidOption name s!"expected strings, found {other.render}")

/-- An option that lists texts; without it the list is empty. -/
def optionalTexts (options : Json) (name : String) (site : Site) :
    Except RuleError (List String) :=
  match options.get? name with
  | none | some .null => pure []
  | some (.arr items) => textItems name site items
  | some other => throw (site.invalidOption name s!"expected a list, found {other.render}")

end ApiLint
