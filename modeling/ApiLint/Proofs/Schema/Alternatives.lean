import ApiLint.Proofs.Schema.Coverage
import ApiLint.Proofs.Schema.Lifting

/-!
# What is lost at alternatives

A strict test that a branch passes is passed by the schema around it, and so on outwards, as long as
`allOf` leads to the branch.  It is lost only where the way goes into alternatives and another one
of them fails.
-/

namespace ApiLint.Schema

variable {schema node : Json} {steps : List Step} {test : Json → Bool}

/-- A way goes into alternatives that do not all pass a strict test. -/
def PassesFailingAlternative (test : Json → Bool) (schema : Json) (steps : List Step) : Prop :=
  ∃ before a i after parent, steps = before ++ .branch a i :: after ∧
    at? schema before = some parent ∧ a ≠ .allOf ∧
    ∃ alternative ∈ a.branches parent, ¬lift .strict test alternative

/-- A branch hands what it passes on to the schema around it, unless the branch is one of several
alternatives and another one fails. -/
theorem lift_of_mem_branches {a : Applicator} {branch : Json} (hmem : branch ∈ a.branches schema)
    (h : lift .strict test branch)
    (halternatives : a ≠ .allOf → ∀ alternative ∈ a.branches schema,
      lift .strict test alternative) : lift .strict test schema := by
  refine (lift_strict_iff (isObj_of_mem_branches hmem)).2 (.inr ?_)
  by_cases ha : a = .allOf
  · exact .inl ⟨branch, ha ▸ hmem, h⟩
  · exact .inr ⟨a, ha, List.ne_nil_of_mem hmem, halternatives ha⟩

theorem passesFailingAlternative_of_lift (hbranches : ∀ step ∈ steps, step.isBranch)
    (hat : at? schema steps = some node) (hnode : lift .strict test node)
    (hschema : ¬lift .strict test schema) : PassesFailingAlternative test schema steps := by
  induction steps generalizing schema with
  | nil =>
    rw [at?, Option.ite_none_right_eq_some, Option.some.injEq] at hat
    exact absurd (hat.2 ▸ hnode) hschema
  | cons step rest ih =>
    rw [at?, Option.ite_none_right_eq_some, Option.bind_eq_some_iff] at hat
    obtain ⟨hobj, inner, hinner, hrest⟩ := hat
    obtain ⟨hstep, hfurther⟩ := List.forall_mem_cons.1 hbranches
    obtain ⟨a, i, rfl⟩ : ∃ a i, step = .branch a i := by
      cases step <;> simp_all [Step.isBranch]
    by_cases hlost : lift .strict test inner
    · -- the test is lost at this step, so it goes into alternatives
      by_contra hpasses
      refine hschema (lift_of_mem_branches (List.mem_of_getElem? hinner) hlost ?_)
      intro ha alternative hmem
      by_contra hfails
      exact hpasses ⟨[], a, i, rest, schema, rfl, by rw [at?, if_pos hobj], ha, alternative, hmem,
        hfails⟩
    · obtain ⟨before, b, j, after, parent, rfl, hparent, hb⟩ := ih hfurther hrest hlost
      refine ⟨.branch a i :: before, b, j, after, parent, rfl, ?_, hb⟩
      rw [at?, if_pos hobj, hinner, Option.bind_some, hparent]

end ApiLint.Schema
