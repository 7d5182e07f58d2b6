import ApiLint.Schema.Applicator

/-!
# What a composed schema guarantees

A test of single nodes is lifted to composed schemas: a schema passes when its own node does, when
one `allOf` branch passes, or when its `oneOf` or its `anyOf` branches pass. The policy says
whether all alternatives have to pass or one is enough; no alternatives at all never pass.
-/

namespace ApiLint.Schema

/-- How many alternatives have to pass a test. -/
inductive Policy where
  | strict
  | loose
deriving DecidableEq

instance : Inhabited Policy := ⟨.strict⟩

/-- Whether alternatives pass together, given whether each does. -/
def Policy.accepts : Policy → List Bool → Bool
  | .strict, answers => !answers.isEmpty && answers.all id
  | .loose, answers => answers.any id

/-- Whether a schema passes a test of single nodes, composition taken into account. What is no
object passes nothing. -/
def lift (policy : Policy) (test : Json → Bool) (schema : Json) : Bool :=
  let answers (a : Applicator) : List Bool :=
    (a.branches schema).attach.map fun ⟨branch, _⟩ => lift policy test branch
  schema.isObj &&
    (test schema || (answers .allOf).any id || policy.accepts (answers .oneOf) ||
      policy.accepts (answers .anyOf))
termination_by sizeOf schema
decreasing_by exact Applicator.sizeOf_lt_of_mem_branches ‹_›

theorem lift_eq (policy : Policy) (test : Json → Bool) (schema : Json) :
    lift policy test schema =
      (schema.isObj &&
        (test schema || (Applicator.allOf.branches schema).any (lift policy test) ||
          policy.accepts ((Applicator.oneOf.branches schema).map (lift policy test)) ||
          policy.accepts ((Applicator.anyOf.branches schema).map (lift policy test)))) := by
  rw [lift]
  simp [List.any_map]

end ApiLint.Schema
