import ApiLint.Descent
import ApiLint.Path.Basic

/-!
# Walking a document

The walk visits every container of a document that is not empty, a container before what it holds
and members and elements in their order. The containers are a list of visits, and `walk` comes to
them with a visitor.
-/

namespace ApiLint.Document

/-- Members and elements, each with the step to it. -/
def contents : Json → List (Segment × Json)
  | .obj members => members.map fun (key, value) => (.key key, value)
  | .arr items => items.zipIdx.map fun (item, i) => (.index i, item)
  | _ => []

theorem smaller_contents {node : Json} {edge : Segment × Json} (h : edge ∈ contents node) :
    sizeOf edge.2 < sizeOf node := by
  cases node <;> simp only [contents, List.not_mem_nil] at h
  case arr items =>
    obtain ⟨⟨item, i⟩, hi, rfl⟩ := List.mem_map.1 h
    exact Json.sizeOf_lt_of_mem_items
      (List.mem_of_getElem? (List.mk_mem_zipIdx_iff_getElem?.1 hi))
  case obj members =>
    obtain ⟨m, hm, rfl⟩ := List.mem_map.1 h
    exact Json.sizeOf_lt_of_mem_members hm

def containment : Descent Segment where
  next := contents
  smaller := smaller_contents

/-- The containers of a document that are not empty, each with the steps to it. -/
def containers (document : Json) : List (Visit Segment) :=
  (containment.visits document).filter fun visit => !(contents visit.node).isEmpty

/-- What a visitor finds in a node, if it is a container that holds something, and then in all that
it holds. The path grows with each step. -/
def walk {α : Type} (visitor : Json → Path → List α) (path : Path) (node : Json) : List α :=
  if (contents node).isEmpty then []
  else
    visitor node path ++ (contents node).attach.flatMap fun ⟨edge, _⟩ =>
      walk visitor (path.child edge.1) edge.2
termination_by sizeOf node
decreasing_by exact smaller_contents ‹_›

end ApiLint.Document
