import ApiLint.Json.Basic

/-!
# Composition keywords

A schema is composed of the branches under `allOf`, `oneOf` and `anyOf`; the schema under `not` is
no part of it. References are never followed.
-/

namespace ApiLint

/-- A keyword that holds a list of branches. -/
inductive Applicator where
  | allOf
  | oneOf
  | anyOf
deriving DecidableEq, Inhabited

namespace Applicator

/-- In the order in which branches are looked at. -/
def all : List Applicator := [.allOf, .oneOf, .anyOf]

def keyword : Applicator → String
  | .allOf => "allOf"
  | .oneOf => "oneOf"
  | .anyOf => "anyOf"

/-- The branches under a keyword; none when it is absent or holds no array. -/
def branches (a : Applicator) (schema : Json) : List Json := schema.itemsAt a.keyword

theorem sizeOf_lt_of_mem_branches {a : Applicator} {schema branch : Json}
    (h : branch ∈ a.branches schema) : sizeOf branch < sizeOf schema :=
  Json.sizeOf_lt_of_mem_itemsAt h

end Applicator

namespace Schema

/-- The keyword of the schema that must not hold. -/
def negationKeyword : String := "not"

/-- Whether a schema has any composition keyword. -/
def isComposite (schema : Json) : Bool :=
  Applicator.all.any (schema.has ·.keyword) || schema.has negationKeyword

/-- The branches of a schema under all keywords. -/
def branches (schema : Json) : List Json := Applicator.all.flatMap (·.branches schema)

/-- The branches of a schema, each with its keyword and its index under it. -/
def placedBranches (schema : Json) : List ((Applicator × Nat) × Json) :=
  Applicator.all.flatMap fun a => (a.branches schema).zipIdx.map fun (branch, i) => ((a, i), branch)

theorem sizeOf_lt_of_mem_branches {schema branch : Json} (h : branch ∈ branches schema) :
    sizeOf branch < sizeOf schema := by
  obtain ⟨a, _, h⟩ := List.mem_flatMap.1 h
  exact Applicator.sizeOf_lt_of_mem_branches h

theorem mem_placedBranches {schema branch : Json} {place : Applicator × Nat} :
    (place, branch) ∈ placedBranches schema ↔
      (place.1.branches schema)[place.2]? = some branch := by
  obtain ⟨a, i⟩ := place
  simp only [placedBranches, List.mem_flatMap, List.mem_map, Prod.exists, Prod.mk.injEq,
    List.mk_mem_zipIdx_iff_getElem?]
  constructor
  · rintro ⟨_, _, _, _, h, ⟨rfl, rfl⟩, rfl⟩
    exact h
  · intro h
    exact ⟨a, by cases a <;> decide, branch, i, h, ⟨rfl, rfl⟩, rfl⟩

theorem sizeOf_lt_of_mem_placedBranches {schema : Json} {b : (Applicator × Nat) × Json}
    (h : b ∈ placedBranches schema) : sizeOf b.2 < sizeOf schema := by
  obtain ⟨place, branch⟩ := b
  exact Applicator.sizeOf_lt_of_mem_branches (List.mem_of_getElem? (mem_placedBranches.1 h))

end Schema

end ApiLint
