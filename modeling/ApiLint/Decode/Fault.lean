/-!
# What can be wrong with decoded data

A fault says why data does not decode. Faults of form and kind have no wording of their own.
-/

namespace ApiLint

inductive Fault where
  /-- The text is not well formed, or a value is not of the kind that is wanted. -/
  | malformed
  | unknownVariant (found : String) (expected : List String)
  | unknownField (found : String) (expected : List String)
  | missingField (name : String)
  | duplicateField (name : String)
  /-- An element of a path that is neither a key nor an index. -/
  | noSegment
deriving DecidableEq

namespace Fault

/-- The character that names are quoted with. -/
def tick : String := String.singleton (Char.ofNat 96)

def ticked (name : String) : String := tick ++ name ++ tick

def oneOf (names : List String) : String :=
  "expected one of " ++ ", ".intercalate (names.map ticked)

def message? : Fault → Option String
  | .malformed => none
  | .unknownVariant found expected => some s!"unknown variant {ticked found}, {oneOf expected}"
  | .unknownField found expected => some s!"unknown field {ticked found}, {oneOf expected}"
  | .missingField name => some s!"missing field {ticked name}"
  | .duplicateField name => some s!"duplicate field {ticked name}"
  | .noSegment => some "data did not match any variant of untagged enum PathSegment"

end Fault

end ApiLint
