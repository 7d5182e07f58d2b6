import ApiLint.Path.Basic

/-!
# JSON pointers

The pointer of a path is its steps, each after a slash, with `~` and `/` inside a step written as
`~0` and `~1`.
-/

namespace ApiLint.Path

/-- How a character stands in a pointer. -/
def escapedChar (c : Char) : List Char :=
  if c = '~' then ['~', '0'] else if c = '/' then ['~', '1'] else [c]

/-- A slash and the escaped text of a step. -/
def pointerToken (step : Segment) : List Char := '/' :: step.text.toList.flatMap escapedChar

def toPointer (path : Path) : String := String.ofList (path.segments.flatMap pointerToken)

end ApiLint.Path
