import ApiLint.Rule.Function

/-!
# Disallowed headers

Reports a header parameter with the name that the option `headerName` gives, in any letter case.
Such a header is described elsewhere, by media types or security schemes.
-/

namespace ApiLint.Rule.DisallowedHeader

def option : String := "headerName"

/-- The diagnostic about one parameter. -/
def diagnostics (header : String) (target : Json) (path : Path) : List Diagnostic :=
  match target.strAt? "name" with
  | some name =>
    if target.strAt? "in" == some "header" && Text.sameIgnoringCase name header then
      [⟨s!"Header parameter '{name}' should not be defined explicitly", path.member "name"⟩]
    else []
  | none => []

def function : RuleFunction where
  name := "disallowed-header"
  check target options site := do
    let header ← requiredText options option site
    pure (diagnostics header target site.path)

end ApiLint.Rule.DisallowedHeader
