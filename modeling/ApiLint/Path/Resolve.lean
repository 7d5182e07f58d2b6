import ApiLint.Json.Basic
import ApiLint.Path.Basic

/-!
# Following a path

A key finds a member of an object, and an element of an array when it is written as a number; an
index finds an element of an array, and the member of an object whose key is that number. So a
path and its text find the same node.
-/

namespace ApiLint

/-- The number that a key stands for among the elements of an array: decimal digits, possibly
after one plus sign. There is no upper bound, as no array reaches one. -/
def Segment.indexOfKey? (name : String) : Option Nat :=
  let digits :=
    match name.toList with
    | '+' :: rest => rest
    | cs => cs
  if digits.isEmpty ∨ digits.any (!·.isDigit) then none
  else some (digits.foldl (fun n c => n * 10 + (c.toNat - '0'.toNat)) 0)

/-- The node one step below `node`. -/
def Json.step? (node : Json) : Segment → Option Json
  | .key name =>
    match node with
    | .obj members => members.lookup name
    | .arr items => (Segment.indexOfKey? name).bind (items[·]?)
    | _ => none
  | .index i =>
    match node with
    | .arr items => items[i]?
    | .obj members => members.lookup (toString i)
    | _ => none

/-- The node that steps lead to. -/
def Json.follow? (node : Json) : List Segment → Option Json
  | [] => some node
  | step :: rest => (node.step? step).bind (follow? · rest)

/-- The node of `document` at `path`. -/
def Path.resolve? (path : Path) (document : Json) : Option Json :=
  document.follow? path.segments

namespace Json

@[simp]
theorem follow?_nil (node : Json) : node.follow? [] = some node := rfl

@[simp]
theorem follow?_cons (node : Json) (step : Segment) (rest : List Segment) :
    node.follow? (step :: rest) = (node.step? step).bind (follow? · rest) := rfl

theorem follow?_append (node : Json) (first second : List Segment) :
    node.follow? (first ++ second) = (node.follow? first).bind (follow? · second) := by
  induction first generalizing node with
  | nil => rfl
  | cons step rest ih => cases h : node.step? step <;> simp [h, ih]

end Json

@[simp]
theorem Path.resolve?_root (document : Json) : Path.root.resolve? document = some document := rfl

theorem Path.resolve?_join (path : Path) (steps : List Segment) (document : Json) :
    (path.join steps).resolve? document = (path.resolve? document).bind (·.follow? steps) :=
  Json.follow?_append document path.segments steps

end ApiLint
