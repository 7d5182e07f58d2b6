import ApiLint.Json.Basic

/-!
# Descending into a value

A `Descent` says which nodes lie directly below a node and what the step to each is called. Its
visits are all nodes that can be reached, each with the steps to it: a node before the nodes below
it, and the whole of an earlier node's descent before a later node.
-/

namespace ApiLint

structure Descent (σ : Type) where
  /-- The nodes directly below a node, each with the step to it. -/
  next : Json → List (σ × Json)
  smaller : ∀ {node : Json} {edge : σ × Json}, edge ∈ next node → sizeOf edge.2 < sizeOf node

/-- A node and the steps that lead to it. -/
structure Visit (σ : Type) where
  steps : List σ
  node : Json

variable {σ : Type}

/-- The visit as seen from one step further up. -/
def Visit.after (step : σ) (visit : Visit σ) : Visit σ :=
  { visit with steps := step :: visit.steps }

namespace Descent

/-- All nodes that can be reached from `node`, itself first. -/
def visits (d : Descent σ) (node : Json) : List (Visit σ) :=
  ⟨[], node⟩ :: (d.next node).attach.flatMap fun ⟨edge, _⟩ =>
    (d.visits edge.2).map (Visit.after edge.1)
termination_by sizeOf node
decreasing_by exact d.smaller ‹_›

theorem visits_eq (d : Descent σ) (node : Json) :
    d.visits node =
      ⟨[], node⟩ :: (d.next node).flatMap fun edge =>
        (d.visits edge.2).map (Visit.after edge.1) := by
  have unattached (f : σ × Json → List (Visit σ)) :
      ((d.next node).attach.flatMap fun ⟨edge, _⟩ => f edge) = (d.next node).flatMap f := by
    rw [List.flatMap_def, List.flatMap_def]
    exact congrArg List.flatten List.attach_map_val
  rw [visits]
  exact congrArg _ (unattached fun edge => (d.visits edge.2).map (Visit.after edge.1))

/-- The visits below a node, without the node itself. -/
def below (d : Descent σ) (node : Json) : List (Visit σ) := (d.visits node).tail

/-- The descent that goes only to nodes that pass a test. -/
def only (d : Descent σ) (test : Json → Bool) : Descent σ where
  next node := (d.next node).filter fun edge => test edge.2
  smaller h := d.smaller (List.mem_filter.1 h).1

end Descent

end ApiLint
