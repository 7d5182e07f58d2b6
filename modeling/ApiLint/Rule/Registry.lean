import ApiLint.Rule.ArrayOfArrays
import ApiLint.Rule.DisallowedHeader
import ApiLint.Rule.MinMaxConsistency
import ApiLint.Rule.PropertyConsistentType
import ApiLint.Rule.PropertyDescription
import ApiLint.Rule.RefPattern
import ApiLint.Rule.RefSiblings
import ApiLint.Rule.RequiredPropertyDefined
import ApiLint.Rule.StringBoundary
import ApiLint.Rule.SuperfluousAllOf
import ApiLint.Table

/-!
# Registered rule functions

A registry holds rule functions under their names, at most one for each name.
-/

namespace ApiLint

/-- The functions that come with the library. -/
def builtinFunctions : List RuleFunction :=
  [Rule.ArrayOfArrays.function, Rule.DisallowedHeader.function, Rule.MinMaxConsistency.function,
    Rule.PropertyDescription.function, Rule.PropertyConsistentType.function,
    Rule.RefPattern.function, Rule.RefSiblings.function, Rule.RequiredPropertyDefined.function,
    Rule.StringBoundary.function, Rule.SuperfluousAllOf.function]

structure Registry where
  functions : Table RuleFunction

namespace Registry

def empty : Registry := ⟨.empty⟩

/-- Adds a function, instead of one of the same name. -/
def register (registry : Registry) (function : RuleFunction) : Registry :=
  ⟨registry.functions.insert function.name function⟩

def get? (registry : Registry) (name : String) : Option RuleFunction :=
  registry.functions.get? name

/-- The names in order. -/
def names (registry : Registry) : List String := registry.functions.keys

def builtin : Registry := builtinFunctions.foldl register empty

/-- A description that lists the names. -/
def description (registry : Registry) : String :=
  "FunctionRegistry \x7b functions: [" ++
    ", ".intercalate (registry.names.map fun name => "\"" ++ name ++ "\"") ++ "] \x7d"

end Registry

end ApiLint
