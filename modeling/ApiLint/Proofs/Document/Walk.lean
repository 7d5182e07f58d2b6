import ApiLint.Document.Walk
import ApiLint.Proofs.Descent
import ApiLint.Proofs.Path.Located

/-!
# Where the walk comes

The steps of the walk through a document are keys and indices of what is there: each container
leads to what it holds, one way to each.
-/

namespace ApiLint

/-- What a container holds under a step: an object under a key, an array under an index. -/
def Json.child? : Json → Segment → Option Json
  | .obj members, .key name => members.lookup name
  | .arr items, .index i => items[i]?
  | _, _ => none

@[simp]
theorem Json.child?_key (node : Json) (name : String) :
    node.child? (.key name) = node.get? name := by
  cases node <;> rfl

namespace Document

variable {node inner : Json} {step : Segment}

theorem mem_contents_iff (distinct : node.hasDistinctKeys) :
    (step, inner) ∈ contents node ↔ node.child? step = some inner := by
  cases node with
  | obj members =>
    have nodup := ((Json.hasDistinctKeys_obj members).1 distinct).1
    cases step <;> simp [contents, Json.child?, Entries.lookup_eq_some_iff nodup]
  | arr items =>
    cases step <;> simp [contents, Json.child?, List.mk_mem_zipIdx_iff_getElem?]
  | _ => simp [contents, Json.child?]

theorem nodup_contents (distinct : node.hasDistinctKeys) :
    ((contents node).map Prod.fst).Nodup := by
  cases node with
  | obj members =>
    have keys := ((Json.hasDistinctKeys_obj members).1 distinct).1
    have steps := keys.map fun first second : String => Segment.key.inj
    rw [List.map_map] at steps
    rwa [contents, List.map_map]
  | arr items =>
    rw [contents, List.map_map]
    exact Entries.nodup_map_zipIdx (fun _ _ => Segment.index.inj) items
  | _ => simp [contents]

theorem isPlacedBy_containment : containment.IsPlacedBy fun step => [step] := by
  rintro node distinct ⟨step, inner⟩ hedge
  change (step, inner) ∈ contents node at hedge
  cases node <;> simp only [contents, List.not_mem_nil] at hedge
  case arr items =>
    obtain ⟨⟨item, i⟩, hitem, h⟩ := List.mem_map.1 hedge
    cases h
    exact Json.follow?_index (List.mk_mem_zipIdx_iff_getElem?.1 hitem)
  case obj members =>
    obtain ⟨⟨key, value⟩, hmem, h⟩ := List.mem_map.1 hedge
    cases h
    exact Json.follow?_key (Json.get?_of_mem_members distinct hmem)

theorem hasDistinctKeys_of_mem_contents {edge : Segment × Json} (distinct : node.hasDistinctKeys)
    (h : edge ∈ contents node) : edge.2.hasDistinctKeys :=
  Json.hasDistinctKeys_of_follow? distinct (isPlacedBy_containment node distinct edge h)

theorem follow?_of_leads {steps : List Segment} (distinct : node.hasDistinctKeys)
    (h : containment.Leads node steps inner) : node.follow? steps = some inner := by
  have hfollow := isPlacedBy_containment.follow?_of_leads h distinct
  rwa [List.flatMap_singleton'] at hfollow

theorem follow?_of_mem_containers {visit : Visit Segment} (distinct : node.hasDistinctKeys)
    (h : visit ∈ containers node) : node.follow? visit.steps = some visit.node :=
  follow?_of_leads distinct (Descent.mem_visits_iff.1 (List.mem_filter.1 h).1)

/-- Different containers stand at different places. -/
theorem nodup_containers (distinct : node.hasDistinctKeys) :
    ((containers node).map Visit.steps).Nodup := by
  have visits : (containment.visits node).Pairwise _ := Descent.pairwise_visits fun hleads =>
    nodup_contents (Json.hasDistinctKeys_of_follow? distinct (follow?_of_leads distinct hleads))
  exact (Descent.nodup_steps visits).sublist (List.filter_sublist.map Visit.steps)

end Document

end ApiLint
