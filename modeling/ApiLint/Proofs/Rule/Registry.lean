import ApiLint.Proofs.Table
import ApiLint.Rule.Registry

/-!
# What a registry finds

A registry finds the function that was last registered under a name, so the registry of the library
finds functions of the library only, and one for each of their names.
-/

namespace ApiLint.Registry

variable {registry : Registry} {name : String} {function : RuleFunction}

theorem get?_register (registry : Registry) (function : RuleFunction) (name : String) :
    (registry.register function).get? name =
      if name = function.name then some function else registry.get? name :=
  Table.get?_insert registry.functions function.name function name

theorem mem_or_get?_of_foldl_register {functions : List RuleFunction}
    (h : (functions.foldl register registry).get? name = some function) :
    (function ∈ functions ∧ function.name = name) ∨ registry.get? name = some function := by
  induction functions generalizing registry with
  | nil => exact .inr h
  | cons first rest ih =>
    obtain ⟨hrest, hname⟩ | hfirst := ih h
    · exact .inl ⟨List.mem_cons_of_mem _ hrest, hname⟩
    · rw [get?_register] at hfirst
      split at hfirst
      · next hname =>
        cases hfirst
        exact .inl ⟨List.mem_cons_self, hname.symm⟩
      · exact .inr hfirst

theorem isSome_get?_foldl_register (functions : List RuleFunction) (registry : Registry) :
    ((functions.foldl register registry).get? name).isSome =
      (functions.any (·.name == name) || (registry.get? name).isSome) := by
  induction functions generalizing registry with
  | nil => rfl
  | cons first rest ih =>
    rw [List.foldl_cons, ih, get?_register, List.any_cons]
    by_cases hname : name = first.name
    · simp [hname]
    · rw [if_neg hname, beq_eq_false_iff_ne.2 (Ne.symm hname), Bool.false_or]

theorem isSome_get?_builtin (name : String) :
    (builtin.get? name).isSome = builtinFunctions.any (·.name == name) :=
  (isSome_get?_foldl_register builtinFunctions empty).trans (Bool.or_false _)

theorem mem_of_get?_builtin (h : builtin.get? name = some function) :
    function ∈ builtinFunctions ∧ function.name = name := by
  obtain hmem | hempty := mem_or_get?_of_foldl_register h
  · exact hmem
  · cases hempty

end ApiLint.Registry
