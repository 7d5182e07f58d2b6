import ApiLint.Proofs.Document.Walk

/-!
# The order of the walk

The walk comes to the containers that hold something, each at the place where it stands, in the
order in which the document is written: a container comes before all that it holds, and all that is
in an earlier child comes before a later child.  What a visitor finds in them is put together in
that order.
-/

namespace ApiLint

/-- What stands at the end of steps: keys go through objects, indices through arrays. -/
def Json.inside? (node : Json) : List Segment → Option Json
  | [] => some node
  | step :: rest => (node.child? step).bind (inside? · rest)

namespace Document

variable {document node inner : Json} {step : Segment}

/-! ## Containers that hold something -/

/-- Whether a value is an object or an array that holds something. -/
def IsFilled : Json → Prop
  | .obj members => members ≠ []
  | .arr items => items ≠ []
  | _ => False

theorem isFilled_iff : IsFilled node ↔ (contents node).isEmpty = false := by
  cases node <;> simp [IsFilled, contents]

theorem isFilled_of_get? {key : String} {value : Json} (h : node.get? key = some value) :
    IsFilled node := by
  cases node with
  | obj members =>
    rintro rfl
    cases h
  | _ => cases h

theorem leads_iff {steps : List Segment} (distinct : node.hasDistinctKeys) :
    containment.Leads node steps inner ↔ node.inside? steps = some inner := by
  induction steps generalizing node with
  | nil => simp [Descent.leads_nil_iff, Json.inside?, eq_comm]
  | cons step rest ih =>
    have held {middle : Json} (hedge : (step, middle) ∈ contents node) : middle.hasDistinctKeys :=
      hasDistinctKeys_of_mem_contents distinct hedge
    rw [Descent.leads_cons_iff, Json.inside?, Option.bind_eq_some_iff]
    constructor
    · rintro ⟨middle, hedge, hrest⟩
      exact ⟨middle, (mem_contents_iff distinct).1 hedge, (ih (held hedge)).1 hrest⟩
    · rintro ⟨middle, hchild, hrest⟩
      have hedge := (mem_contents_iff distinct).2 hchild
      exact ⟨middle, hedge, (ih (held hedge)).2 hrest⟩

theorem mem_containers_iff {visit : Visit Segment} (distinct : document.hasDistinctKeys) :
    visit ∈ containers document ↔
      document.inside? visit.steps = some visit.node ∧ IsFilled visit.node := by
  rw [containers, List.mem_filter, Descent.mem_visits_iff, leads_iff distinct, isFilled_iff,
    Bool.not_eq_true']

/-! ## The walk -/

theorem containers_of_isEmpty (h : (contents node).isEmpty) : containers node = [] := by
  rw [containers, Descent.visits_eq, List.filter_cons]
  simp [containment, List.isEmpty_iff.1 h]

theorem containers_of_not_isEmpty (h : ¬(contents node).isEmpty) :
    containers node = ⟨[], node⟩ :: (contents node).flatMap fun edge =>
      (containers edge.2).map (Visit.after edge.1) := by
  have further (edge : Segment × Json) :
      ((containment.visits edge.2).map (Visit.after edge.1)).filter
          (fun visit => !(contents visit.node).isEmpty) =
        (containers edge.2).map (Visit.after edge.1) := List.filter_map
  rw [containers, Descent.visits_eq, List.filter_cons_of_pos (by simpa using h),
    List.filter_flatMap]
  simp only [further]
  rfl

/-- The walk runs its visitor at the containers that hold something. -/
theorem walk_eq {α : Type} (visitor : Json → Path → List α) (path : Path) (node : Json) :
    walk visitor path node =
      (containers node).flatMap fun visit => visitor visit.node (path.join visit.steps) := by
  induction node using containment.induction generalizing path with
  | step node ih =>
    rw [walk]
    split
    · next hempty => rw [containers_of_isEmpty hempty, List.flatMap_nil]
    · next hfilled =>
      simp only [List.flatMap_subtype, List.unattach_attach]
      rw [containers_of_not_isEmpty hfilled, List.flatMap_cons, Path.join_nil, List.flatMap_assoc]
      refine congrArg _ (List.flatMap_congr fun edge hedge => ?_)
      rw [ih edge hedge, List.flatMap_map]
      simp only [Path.child, Path.join_join, Visit.after, List.singleton_append]

/-! ## Document order -/

/-- A place comes before the places inside it, and a place inside a child of a container comes
before the places inside a later child. -/
inductive Precedes (document : Json) : List Segment → List Segment → Prop
  | inside (outer : List Segment) (step : Segment) (rest : List Segment) :
      Precedes document outer (outer ++ step :: rest)
  | beside (common : List Segment) {container : Json} {first second : Segment}
      (hcontainer : document.inside? common = some container)
      (horder : [first, second].Sublist ((contents container).map Prod.fst))
      (rest others : List Segment) :
      Precedes document (common ++ first :: rest) (common ++ second :: others)

theorem Precedes.cons {earlier later : List Segment} (hchild : node.child? step = some inner)
    (h : Precedes inner earlier later) : Precedes node (step :: earlier) (step :: later) := by
  cases h with
  | inside _ next rest => exact .inside (step :: earlier) next rest
  | @beside common _ _ _ hcontainer horder rest others =>
    have hat : node.inside? (step :: common) = inner.inside? common := by
      rw [Json.inside?, hchild, Option.bind_some]
    exact .beside (step :: common) (hat.trans hcontainer) horder rest others

theorem pairwise_precedes_visits (distinct : document.hasDistinctKeys) :
    (containment.visits document).Pairwise fun earlier later =>
      Precedes document earlier.steps later.steps := by
  induction document using containment.induction with
  | step node ih =>
    rw [Descent.visits_eq, List.pairwise_cons, List.pairwise_flatMap]
    refine ⟨fun visit hvisit => ?_, fun edge hedge => ?_, ?_⟩
    · obtain ⟨edge, -, hvisit⟩ := List.mem_flatMap.1 hvisit
      obtain ⟨further, -, rfl⟩ := List.mem_map.1 hvisit
      exact .inside [] edge.1 further.steps
    · have held := hasDistinctKeys_of_mem_contents distinct hedge
      rw [List.pairwise_map]
      exact (ih edge hedge held).imp fun h => h.cons ((mem_contents_iff distinct).1 hedge)
    · refine List.pairwise_iff_forall_sublist.2 fun {first second} horder => ?_
      rintro earlier hearlier later hlater
      obtain ⟨below, -, rfl⟩ := List.mem_map.1 hearlier
      obtain ⟨beyond, -, rfl⟩ := List.mem_map.1 hlater
      exact .beside [] rfl (horder.map Prod.fst) below.steps beyond.steps

/-- The walk runs its visitor at the objects and arrays of a document that hold something, at each
of them once and at nothing else, with the path that leads to it.  An object or array comes before
all that it holds, and all that is in an earlier child comes before a later child. -/
theorem walk_visits_filled_containers (distinct : document.hasDistinctKeys) (start : Path) :
    (∀ {α : Type} (visitor : Json → Path → List α), walk visitor start document =
      (containers document).flatMap fun visit => visitor visit.node (start.join visit.steps)) ∧
      (∀ visit : Visit Segment, visit ∈ containers document ↔
        document.inside? visit.steps = some visit.node ∧ IsFilled visit.node) ∧
      ((containers document).map fun visit => start.join visit.steps).Nodup ∧
      (∀ visit ∈ containers document,
        (Path.root.join visit.steps).resolve? document = some visit.node) ∧
      (containers document).Pairwise fun earlier later =>
        Precedes document earlier.steps later.steps := by
  refine ⟨fun visitor => walk_eq visitor start document, fun _ => mem_containers_iff distinct, ?_,
    fun visit hvisit => follow?_of_mem_containers distinct hvisit,
    (pairwise_precedes_visits distinct).filter _⟩
  have places := (nodup_containers distinct).map (Path.join_injective start)
  rwa [List.map_map] at places

/-- An object in a list is visited, and the empty object before it is not. -/
theorem mem_walk_object_of_list :
    let document : Json := .obj [("z", .obj [("k", .null)]),
      ("a", .arr [.obj [], .obj [("k", .null)]])]
    let places (_ : Json) (path : Path) : List Path := [path]
    document.hasDistinctKeys ∧ ⟨[.key "a", .index 1]⟩ ∈ walk places .root document ∧
      ⟨[.key "a", .index 0]⟩ ∉ walk places .root document := by
  intro document places
  have distinct : document.hasDistinctKeys := by decide
  obtain ⟨visited, filled, -⟩ := walk_visits_filled_containers distinct .root
  refine ⟨distinct, ?_, ?_⟩
  · rw [visited, List.mem_flatMap]
    exact ⟨⟨[.key "a", .index 1], .obj [("k", .null)]⟩, (filled _).2 ⟨rfl, by simp [IsFilled]⟩,
      by decide⟩
  · rw [visited, List.mem_flatMap]
    rintro ⟨⟨steps, node⟩, hvisit, hplace⟩
    obtain ⟨hinside, hfilled⟩ := (filled _).1 hvisit
    have hsteps := congrArg Path.segments (List.mem_singleton.1 hplace)
    obtain rfl : [.key "a", .index 0] = steps := hsteps
    obtain rfl : Json.obj [] = node := Option.some.inj hinside
    exact hfilled rfl

end Document

end ApiLint
