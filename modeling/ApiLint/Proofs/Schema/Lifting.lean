import ApiLint.Schema.Composition
import Mathlib.Tactic.Common

/-!
# Tests lifted over composition

A strict test passes at an object through its own node, through one `allOf` branch, or through
alternatives that are there and all pass, and then a loose test passes too.  Under either policy
lifting is monotone in what the test says of the parts of a schema, and to lift a lifted test
changes nothing.
-/

namespace ApiLint.Schema

/-- What holds of a schema when it holds of all its branches holds of every schema. -/
@[elab_as_elim]
theorem branch_induction {motive : Json → Prop}
    (step : ∀ schema, (∀ (a : Applicator), ∀ branch ∈ a.branches schema, motive branch) →
      motive schema) (schema : Json) : motive schema :=
  step schema fun _ branch _ => branch_induction step branch
termination_by sizeOf schema
decreasing_by exact Applicator.sizeOf_lt_of_mem_branches ‹_›

theorem lift_of_not_isObj {policy : Policy} {test : Json → Bool} {schema : Json}
    (h : schema.isObj = false) : lift policy test schema = false := by
  rw [lift_eq, h, Bool.false_and]

theorem accepts_strict_iff {branches : List Json} {test : Json → Bool} :
    Policy.strict.accepts (branches.map test) ↔
      branches ≠ [] ∧ ∀ branch ∈ branches, test branch := by
  simp [Policy.accepts]

theorem lift_iff {policy : Policy} {test : Json → Bool} {schema : Json} :
    lift policy test schema ↔
      schema.isObj ∧ (test schema ∨
        (∃ branch ∈ Applicator.allOf.branches schema, lift policy test branch) ∨
        ∃ a, a ≠ Applicator.allOf ∧
          policy.accepts ((a.branches schema).map (lift policy test))) := by
  rw [lift_eq]
  simp only [Bool.and_eq_true, Bool.or_eq_true, List.any_eq_true, or_assoc]
  refine and_congr_right' (or_congr_right (or_congr_right ⟨?_, ?_⟩))
  · rintro (h | h)
    · exact ⟨.oneOf, by decide, h⟩
    · exact ⟨.anyOf, by decide, h⟩
  · rintro ⟨a, ha, h⟩
    cases a with
    | allOf => exact absurd rfl ha
    | oneOf => exact .inl h
    | anyOf => exact .inr h

theorem lift_strict_iff {test : Json → Bool} {schema : Json} (hobj : schema.isObj) :
    lift .strict test schema ↔
      test schema ∨ (∃ branch ∈ Applicator.allOf.branches schema, lift .strict test branch) ∨
        ∃ a, a ≠ Applicator.allOf ∧ a.branches schema ≠ [] ∧
          ∀ branch ∈ a.branches schema, lift .strict test branch := by
  rw [lift_iff, and_iff_right hobj]
  simp only [accepts_strict_iff]

/-- Every branch counts when one alternative is enough. -/
theorem lift_loose_iff {test : Json → Bool} {schema : Json} (hobj : schema.isObj) :
    lift .loose test schema ↔
      test schema ∨ ∃ a : Applicator, ∃ branch ∈ a.branches schema, lift .loose test branch := by
  have accepts (branches : List Json) :
      Policy.loose.accepts (branches.map (lift .loose test)) ↔
        ∃ branch ∈ branches, lift .loose test branch := by
    simp [Policy.accepts]
  rw [lift_iff, and_iff_right hobj]
  refine or_congr_right ?_
  simp only [accepts]
  constructor
  · rintro (h | ⟨a, -, h⟩)
    · exact ⟨.allOf, h⟩
    · exact ⟨a, h⟩
  · rintro ⟨a, h⟩
    by_cases ha : a = .allOf
    · exact .inl (ha ▸ h)
    · exact .inr ⟨a, ha, h⟩

/-- What all alternatives give, one of them gives, as there are any. -/
theorem lift_loose_of_strict {test : Json → Bool} {schema : Json} (h : lift .strict test schema) :
    lift .loose test schema := by
  induction schema using branch_induction with
  | step schema ih =>
    have hobj := (lift_iff.1 h).1
    refine (lift_loose_iff hobj).2 ?_
    obtain hown | ⟨branch, hmem, hlift⟩ | ⟨a, -, hne, hall⟩ := (lift_strict_iff hobj).1 h
    · exact .inl hown
    · exact .inr ⟨.allOf, branch, hmem, ih _ branch hmem hlift⟩
    · obtain ⟨branch, hmem⟩ := List.exists_mem_of_ne_nil _ hne
      exact .inr ⟨a, branch, hmem, ih a branch hmem (hall branch hmem)⟩

/-! ## Parts -/

/-- A schema is a part of itself, and so are the parts of its branches. -/
inductive IsPartOf : Json → Json → Prop
  | self (schema : Json) : IsPartOf schema schema
  | branch {a : Applicator} {node branch schema : Json} (hmem : branch ∈ a.branches schema)
      (h : IsPartOf node branch) : IsPartOf node schema

theorem isObj_of_mem_branches {a : Applicator} {schema branch : Json}
    (h : branch ∈ a.branches schema) : schema.isObj := by
  cases schema with
  | obj members => rfl
  | _ => simp [Applicator.branches, Json.itemsAt, Json.get?] at h

theorem IsPartOf.isObj {node schema : Json} (h : IsPartOf node schema) (hobj : node.isObj) :
    schema.isObj := by
  cases h with
  | self => exact hobj
  | branch hmem _ => exact isObj_of_mem_branches hmem

/-! ## Lifting as a closure -/

variable {policy : Policy} {p q test : Json → Bool} {schema : Json}

theorem Policy.accepts_mono {branches : List Json} (h : ∀ branch ∈ branches, p branch → q branch)
    (hp : policy.accepts (branches.map p)) : policy.accepts (branches.map q) := by
  cases policy with
  | strict =>
    rw [accepts_strict_iff] at hp ⊢
    exact ⟨hp.1, fun branch hmem => h branch hmem (hp.2 branch hmem)⟩
  | loose =>
    simp only [accepts, List.any_map, List.any_eq_true] at hp ⊢
    obtain ⟨branch, hmem, hp⟩ := hp
    exact ⟨branch, hmem, h branch hmem hp⟩

theorem lift_of_test (hobj : schema.isObj) (h : test schema) : lift policy test schema :=
  lift_iff.2 ⟨hobj, .inl h⟩

/-- A test that implies another one at the parts of a schema implies it for the schema. -/
theorem lift_mono (h : ∀ node, IsPartOf node schema → node.isObj → p node → q node)
    (hp : lift policy p schema) : lift policy q schema := by
  induction schema using branch_induction with
  | step schema ih =>
    have ofBranch {a : Applicator} (branch : Json) (hmem : branch ∈ a.branches schema) :
        lift policy p branch → lift policy q branch :=
      ih a branch hmem fun node hnode => h node (.branch hmem hnode)
    obtain ⟨hobj, hown | ⟨branch, hmem, hlift⟩ | ⟨a, ha, haccepts⟩⟩ := lift_iff.1 hp
    · exact lift_of_test hobj (h schema (.self schema) hobj hown)
    · exact lift_iff.2 ⟨hobj, .inr (.inl ⟨branch, hmem, ofBranch branch hmem hlift⟩)⟩
    · exact lift_iff.2 ⟨hobj, .inr (.inr ⟨a, ha, Policy.accepts_mono ofBranch haccepts⟩)⟩

theorem lift_of_lift_lift (h : lift policy (lift policy test) schema) :
    lift policy test schema := by
  induction schema using branch_induction with
  | step schema ih =>
    obtain ⟨hobj, hown | ⟨branch, hmem, hlift⟩ | ⟨a, ha, haccepts⟩⟩ := lift_iff.1 h
    · exact hown
    · exact lift_iff.2 ⟨hobj, .inr (.inl ⟨branch, hmem, ih .allOf branch hmem hlift⟩)⟩
    · exact lift_iff.2 ⟨hobj, .inr (.inr ⟨a, ha, Policy.accepts_mono (ih a) haccepts⟩)⟩

theorem lift_lift (policy : Policy) (test : Json → Bool) (schema : Json) :
    lift policy (lift policy test) schema = lift policy test schema :=
  Bool.eq_iff_iff.2 ⟨lift_of_lift_lift, lift_mono fun _ _ hobj => lift_of_test hobj⟩

/-- Under either policy lifting is a closure: an object that passes a test passes the lifted one, a
test that implies another one at the parts of a schema does so lifted, and to lift twice is to lift
once.  What passes a strict test passes a loose one. -/
theorem lift_is_closure (policy : Policy) (p q : Json → Bool) (schema : Json) :
    (schema.isObj → p schema → lift policy p schema) ∧
      ((∀ node, IsPartOf node schema → node.isObj → p node → q node) →
        lift policy p schema → lift policy q schema) ∧
      lift policy (lift policy p) schema = lift policy p schema ∧
      (lift .strict p schema → lift .loose p schema) :=
  ⟨lift_of_test, lift_mono, lift_lift policy p schema, lift_loose_of_strict⟩

/-- Two alternatives with an identifier, one of them through a branch of its own. -/
theorem lift_of_identified_alternatives :
    let identified : Json := .obj [("id", .null)]
    let schema : Json := .obj [("oneOf", .arr [identified, .obj [("allOf", .arr [identified])]])]
    let p (node : Json) : Bool := node.has "id"
    let q (node : Json) : Bool := node.has "id" || node.has "name"
    (identified.isObj ∧ p identified ∧ lift .strict p identified) ∧
      (∀ node, IsPartOf node schema → node.isObj → p node → q node) ∧
      lift .strict p schema ∧ lift .strict q schema ∧ lift .loose p schema := by
  intro identified schema p q
  have hp : lift .strict p schema := by decide +kernel
  have implies (node : Json) (_ : IsPartOf node schema) (_ : node.isObj) (h : p node) : q node :=
    Bool.or_eq_true_iff.2 (.inl h)
  obtain ⟨own, -, -, -⟩ := lift_is_closure .strict p q identified
  obtain ⟨-, mono, -, loose⟩ := lift_is_closure .strict p q schema
  exact ⟨⟨rfl, rfl, own rfl rfl⟩, implies, hp, mono implies hp, loose hp⟩

end ApiLint.Schema
