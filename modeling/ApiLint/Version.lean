import ApiLint.Json.Basic
import ApiLint.Text

/-!
# Version of an API description

The `openapi` and `swagger` members say which version a document is written for.
-/

namespace ApiLint

inductive Version where
  | swagger2
  | openApi3
  | unknown
deriving DecidableEq, Inhabited

namespace Version

/-- Version three wins over version two when a document names both. -/
def detect (document : Json) : Version :=
  if (document.strAt? "openapi").any (Text.startsWith · "3.") then .openApi3
  else if (document.strAt? "swagger").any (Text.startsWith · "2.") then .swagger2
  else .unknown

/-- The name shown to readers. -/
def text : Version → String
  | .swagger2 => "swagger2"
  | .openApi3 => "openapi3"
  | .unknown => "unknown"

/-- The name in exchanged data. -/
def code : Version → String
  | .swagger2 => "swagger2"
  | .openApi3 => "open_api3"
  | .unknown => "unknown"

def all : List Version := [.swagger2, .openApi3, .unknown]

end Version

end ApiLint
