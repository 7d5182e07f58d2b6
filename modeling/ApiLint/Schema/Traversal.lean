import ApiLint.Descent
import ApiLint.Schema.Properties
import ApiLint.Schema.Step

/-!
# Traversals of a schema

Three ways through a schema, each a list of visits that does not depend on what is done at a visit.
The composed visits follow branches, the nested visits follow everything that describes a part of
the value, and the single-kind visits follow one keyword of each node. Only objects are visited.
`checkNested` and `checkSingleKind` go the last two ways with a check that is run on the schemas as
they are come to.
-/

namespace ApiLint

namespace Schema

/-! ## Edges -/

/-- Branches as steps. -/
def branchEdges (schema : Json) : List (Step × Json) :=
  (placedBranches schema).map fun ((a, i), branch) => (.branch a i, branch)

def negationEdges (schema : Json) : List (Step × Json) :=
  (schema.get? negationKeyword).toList.map fun negated => (.negation, negated)

def propertyEdges (schema : Json) : List (Step × Json) :=
  (ownProperties schema).map fun (name, property) => (.property name, property)

def itemsEdges (schema : Json) : List (Step × Json) :=
  (schema.get? "items").toList.map fun items => (.items, items)

def additionalEdges (schema : Json) : List (Step × Json) :=
  (schema.get? "additionalProperties").toList.map fun additional => (.additional, additional)

def patternEdges (schema : Json) : List (Step × Json) :=
  (schema.membersAt "patternProperties").map fun (regex, property) => (.pattern regex, property)

theorem smaller_branchEdges {schema : Json} {edge : Step × Json} (h : edge ∈ branchEdges schema) :
    sizeOf edge.2 < sizeOf schema := by
  obtain ⟨_, hb, rfl⟩ := List.mem_map.1 h
  exact sizeOf_lt_of_mem_placedBranches hb

theorem smaller_of_member {schema : Json} {edge : Step × Json} {key : String} {step : Step}
    (h : edge ∈ (schema.get? key).toList.map fun member => (step, member)) :
    sizeOf edge.2 < sizeOf schema := by
  obtain ⟨_, hm, rfl⟩ := List.mem_map.1 h
  exact Json.sizeOf_lt_of_get? (Option.mem_toList.1 hm)

theorem smaller_of_membersAt {schema : Json} {edge : Step × Json} {key : String}
    {step : String → Step}
    (h : edge ∈ (schema.membersAt key).map fun m => (step m.1, m.2)) :
    sizeOf edge.2 < sizeOf schema := by
  obtain ⟨_, hm, rfl⟩ := List.mem_map.1 h
  exact Json.sizeOf_lt_of_mem_membersAt hm

/-! ## Composed visits -/

/-- The schemas that a schema is composed of, and its negation when wanted. -/
def composition (withNegation : Bool) : Descent Step where
  next schema := branchEdges schema ++ if withNegation then negationEdges schema else []
  smaller h := by
    rcases List.mem_append.1 h with h | h
    · exact smaller_branchEdges h
    · cases withNegation <;> simp at h
      exact smaller_of_member h

/-- The visits of a descent from a schema, through objects only. -/
def visitsThrough (descent : Descent Step) (schema : Json) : List (Visit Step) :=
  if schema.isObj then (descent.only Json.isObj).visits schema else []

/-- A schema, when wanted, and the schemas that it is composed of. -/
def composedVisits (withSelf withNegation : Bool) (schema : Json) : List (Visit Step) :=
  let visits := visitsThrough (composition withNegation) schema
  if withSelf then visits else visits.tail

/-! ## Nested visits -/

/-- All schemas that stand inside a schema. -/
def nesting (withNegation : Bool) : Descent Step where
  next schema :=
    propertyEdges schema ++ itemsEdges schema ++ additionalEdges schema ++ patternEdges schema ++
      (if withNegation then negationEdges schema else []) ++ branchEdges schema
  smaller h := by
    simp only [List.mem_append] at h
    rcases h with ((((h | h) | h) | h) | h) | h
    · exact smaller_of_membersAt h
    · exact smaller_of_member h
    · exact smaller_of_member h
    · exact smaller_of_membersAt h
    · cases withNegation <;> simp at h
      exact smaller_of_member h
    · exact smaller_branchEdges h

/-- Whether a visit is to a schema of its own, and not to a branch of another one. -/
def isOwnSchema (withSelf : Bool) (visit : Visit Step) : Bool :=
  match visit.steps.getLast? with
  | none => withSelf
  | some step => !step.isComposition

/-- A schema, when wanted, and the schemas of its properties and items at any depth. Branches are
passed through and not visited, as they belong to the schema they stand in. -/
def nestedVisits (withSelf withNegation : Bool) (schema : Json) : List (Visit Step) :=
  (visitsThrough (nesting withNegation) schema).filter (isOwnSchema withSelf)

/-- What a check finds in a schema, when wanted, and then in the schemas nested in it. Both places
grow with each step, and what a composition leads to is passed through without a check. -/
def checkNested {α : Type} (check : Json → Path → Path → List α) (withNegation withSelf : Bool)
    (path logical : Path) (schema : Json) : List α :=
  if schema.isObj then
    (if withSelf then check schema path logical else []) ++
      ((nesting withNegation).next schema).attach.flatMap fun ⟨edge, _⟩ =>
        checkNested check withNegation (!edge.1.isComposition) (path.join edge.1.segments)
          (logical.join edge.1.logical) edge.2
  else []
termination_by sizeOf schema
decreasing_by exact (nesting withNegation).smaller ‹_›

/-! ## Single-kind visits -/

/-- The keywords that single-kind visits look for when there are no properties and no items. -/
def soleApplicators : List Applicator := [.allOf, .anyOf, .oneOf]

/-- The first list of branches, even an empty one. -/
def soleBranchEdges (schema : Json) : List (Step × Json) :=
  match soleApplicators.find? fun a => (schema.get? a.keyword).any Json.isArr with
  | some a => (a.branches schema).zipIdx.map fun (branch, i) => (.branch a i, branch)
  | none => []

theorem smaller_soleBranchEdges {schema : Json} {edge : Step × Json}
    (h : edge ∈ soleBranchEdges schema) : sizeOf edge.2 < sizeOf schema := by
  unfold soleBranchEdges at h
  split at h
  · obtain ⟨⟨branch, i⟩, hb, rfl⟩ := List.mem_map.1 h
    exact Applicator.sizeOf_lt_of_mem_branches
      (List.mem_of_getElem? (List.mk_mem_zipIdx_iff_getElem?.1 hb))
  · simp at h

/-- The schemas under the first usable keyword: properties, items, then branches. -/
def soleEdges (schema : Json) : List (Step × Json) :=
  if (schema.object? propertiesKeyword).isSome then propertyEdges schema
  else if (schema.object? "items").isSome then itemsEdges schema
  else soleBranchEdges schema

def singleKind : Descent Step where
  next := soleEdges
  smaller h := by
    unfold soleEdges at h
    split at h
    · exact smaller_of_membersAt h
    · split at h
      · exact smaller_of_member h
      · exact smaller_soleBranchEdges h

/-- A schema and the schemas below it, going through one keyword of each node. -/
def singleKindVisits (schema : Json) : List (Visit Step) := visitsThrough singleKind schema

/-- What a check finds in a schema and then in the schemas under its first usable keyword. The
place grows with each step. -/
def checkSingleKind {α : Type} (check : Json → Path → List α) (path : Path) (schema : Json) :
    List α :=
  if schema.isObj then
    check schema path ++ (soleEdges schema).attach.flatMap fun ⟨edge, _⟩ =>
      checkSingleKind check (path.join edge.1.segments) edge.2
  else []
termination_by sizeOf schema
decreasing_by exact singleKind.smaller ‹_›

end Schema

/-! ## Places of visits -/

namespace Visit

/-- Where the node of a visit is, given where the descent began. -/
def path (visit : Visit Schema.Step) (start : Path) : Path :=
  start.join (visit.steps.flatMap Schema.Step.segments)

/-- Where the values of the visited schema are in those of the first schema. -/
def logical (visit : Visit Schema.Step) : Path := ⟨visit.steps.flatMap Schema.Step.logical⟩

end Visit

end ApiLint
