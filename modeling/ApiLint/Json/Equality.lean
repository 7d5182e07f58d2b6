import ApiLint.Json.Basic

/-!
# Equality of JSON values

Two values are the same when they differ at most in the order of object members.
-/

namespace ApiLint.Json

mutual

/-- Equality that does not look at the order of members. -/
def same : Json → Json → Bool
  | .null, .null => true
  | .bool a, .bool b => a == b
  | .num a, .num b => a.same b
  | .str a, .str b => a == b
  | .arr a, .arr b => sameItems a b
  | .obj a, .obj b => a.length == b.length && isWithin a b
  | _, _ => false

def sameItems : List Json → List Json → Bool
  | [], [] => true
  | a :: as, b :: bs => a.same b && sameItems as bs
  | _, _ => false

/-- Whether every member of the first list is in the second with the same value. -/
def isWithin : List (String × Json) → List (String × Json) → Bool
  | [], _ => true
  | (key, value) :: rest, members =>
    (match members.lookup key with
      | some other => value.same other
      | none => false) && isWithin rest members

end

end ApiLint.Json
