import ApiLint.Proofs.Document.Walk
import ApiLint.Proofs.Schema.Tail
import ApiLint.Diagnostic

/-!
# What is reported at one place

A rule that looks at each node of a list of visits puts its diagnostics at the node or at a member
of it.  As no two visits are at the same place, the diagnostics at one place are those of one visit,
and what a rule reports there can be read off the check of that node alone.
-/

namespace ApiLint

/-- What passes a test comes from one item, when the items are at different places and those at
other places have nothing that passes. -/
theorem filter_flatMap_of_mem {ι κ β : Type} {items : List ι} {place : ι → κ} {check : ι → List β}
    {keep : β → Bool} {item : ι} (nodup : (items.map place).Nodup) (hitem : item ∈ items)
    (others : ∀ other ∈ items, place other ≠ place item → (check other).filter keep = []) :
    (items.flatMap check).filter keep = (check item).filter keep := by
  obtain ⟨before, after, rfl⟩ := List.append_of_mem hitem
  rw [List.map_append, List.map_cons, List.nodup_append, List.nodup_cons] at nodup
  obtain ⟨-, ⟨habsent, -⟩, hapart⟩ := nodup
  have none_before : (before.flatMap check).filter keep = [] := by
    rw [List.filter_flatMap, List.flatMap_eq_nil_iff]
    intro other hother
    exact others other (by simp [hother]) fun hsame =>
      hapart _ (List.mem_map_of_mem hother) _ (List.mem_cons_self) hsame
  have none_after : (after.flatMap check).filter keep = [] := by
    rw [List.filter_flatMap, List.flatMap_eq_nil_iff]
    intro other hother
    exact others other (by simp [hother]) fun hsame =>
      habsent (hsame ▸ List.mem_map_of_mem hother)
  rw [List.flatMap_append, List.flatMap_cons, List.filter_append, List.filter_append, none_before,
    none_after, List.nil_append, List.append_nil]

/-- The diagnostics at the place of a visit, when each visit has its own at its place. -/
theorem filter_path_visits {visits : List (Visit Schema.Step)} {visit : Visit Schema.Step}
    {check : Visit Schema.Step → List Diagnostic} {start : Path}
    (nodup : (visits.map Visit.steps).Nodup) (hvisit : visit ∈ visits)
    (own : ∀ visit, ∀ d ∈ check visit, d.path = visit.path start) :
    (visits.flatMap check).filter (·.path = visit.path start) = check visit := by
  rw [filter_flatMap_of_mem (Visit.nodup_paths nodup start) hvisit]
  · exact List.filter_eq_self.2 fun d hd => by simpa using own visit d hd
  · intro other _ hne
    exact List.filter_eq_nil_iff.2 fun d hd => by simpa [own other d hd] using hne

/-- The diagnostics one step from the place of an item, when each item has its own there. -/
theorem filter_path_child {ι : Type} {items : List ι} {place : ι → Path}
    {check : ι → List Diagnostic} {item : ι} (nodup : (items.map place).Nodup)
    (hitem : item ∈ items) (own : ∀ item, ∀ d ∈ check item, d.path.parent? = some (place item))
    (step : Segment) :
    (items.flatMap check).filter (·.path = (place item).child step) =
      (check item).filter (·.path = (place item).child step) := by
  refine filter_flatMap_of_mem nodup hitem fun other _ hne => ?_
  refine List.filter_eq_nil_iff.2 fun d hd hpath => hne ?_
  have parents := own other d hd
  rw [of_decide_eq_true hpath, Path.parent?_child, Option.some.injEq] at parents
  exact parents.symm

/-- The diagnostics at a step from a container, when each container has its own one step from it. -/
theorem filter_path_containers {document : Json} {visit : Visit Segment}
    {check : Json → Path → List Diagnostic} (distinct : document.hasDistinctKeys)
    (hvisit : visit ∈ Document.containers document)
    (own : ∀ node path, ∀ d ∈ check node path, d.path.parent? = some path) (start : Path)
    (step : Segment) :
    ((Document.containers document).flatMap fun visit =>
        check visit.node (start.join visit.steps)).filter
          (·.path = (start.join visit.steps).child step) =
      (check visit.node (start.join visit.steps)).filter
        (·.path = (start.join visit.steps).child step) := by
  have places := (Document.nodup_containers distinct).map start.join_injective
  rw [List.map_map] at places
  exact filter_path_child places hvisit (fun visit => own visit.node _) step

end ApiLint
