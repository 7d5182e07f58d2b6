import ApiLint.Proofs.Schema.Coverage

/-!
# How the path of a schema ends

Some rules tell what a schema is from the last two steps of its path.  The place of a step to an
entry of a map or list ends in two segments of its own, so the first of them says what holds the
entry.  The place of any other step is one key, and what comes before it is the end of the path of
the schema around, which can be a name that only looks like a keyword.
-/

namespace ApiLint

theorem Visit.path_append_singleton (start : Path) (before : List Schema.Step) (step : Schema.Step)
    (node : Json) :
    (Visit.mk (before ++ [step]) node).path start =
      ((Visit.mk before node).path start).join step.segments := by
  simp [Visit.path, Path.join_join]

namespace Schema

/-! ## Entries and names -/

/-- The keyword of the map or list that a step goes into, if it goes into one. -/
def Step.holder? : Step → Option String
  | .property _ => some propertiesKeyword
  | .pattern _ => some "patternProperties"
  | .branch applicator _ => some applicator.keyword
  | _ => none

/-- The key that the place of a step ends in. -/
def Step.lastKey? : Step → Option String
  | .property name => some name
  | .items => some "items"
  | .additional => some "additionalProperties"
  | .pattern regex => some regex
  | .branch _ _ => none
  | .negation => some negationKeyword

/-- The last step goes into the map or list under a keyword. -/
def IsEntryOf (keyword : String) (steps : List Step) : Prop :=
  ∃ before step, steps = before ++ [step] ∧ step.holder? = some keyword

/-- The path of a schema ends as if the schema were an entry under a keyword, and it is none: it
holds the items or the additional properties of a property or pattern that has the keyword for its
name, or what comes before it on the path of the first schema is such a name. -/
def ResemblesEntryOf (keyword : String) (start : Path) (steps : List Step) : Prop :=
  (steps = [] ∧ start.parentKey? = some keyword) ∨
    ∃ before step, steps = before ++ [step] ∧ (step = .items ∨ step = .additional) ∧
      ((before = [] ∧ start.lastKey? = some keyword) ∨
        ∃ outer, before = outer ++ [.property keyword] ∨ before = outer ++ [.pattern keyword])

/-! ## The last two steps -/

variable {keyword : String} {start : Path} {steps before : List Step} {node : Json}

theorem lastKey?_join_segments (path : Path) (step : Step) :
    (path.join step.segments).lastKey? = step.lastKey? := by
  cases step <;> simp [Path.lastKey?, Path.last?, Step.segments, Step.lastKey?, Segment.key?]

theorem parentKey?_join_segments (path : Path) (step : Step) :
    (path.join step.segments).parentKey? = step.holder?.or path.lastKey? := by
  cases step <;> simp [Path.parentKey?, Path.parent?, Path.lastKey?, Path.last?, Step.segments,
    Step.holder?, Segment.key?, propertiesKeyword]

/-- A path ends in a name that is no keyword of a single schema only where it has come to a
property or pattern of that name. -/
theorem lastKey?_path_eq_some_iff
    (hkeyword : keyword ∉ ["items", "additionalProperties", negationKeyword]) :
    ((Visit.mk steps node).path start).lastKey? = some keyword ↔
      (steps = [] ∧ start.lastKey? = some keyword) ∨
        ∃ outer, steps = outer ++ [.property keyword] ∨ steps = outer ++ [.pattern keyword] := by
  simp only [List.mem_cons, List.not_mem_nil, or_false, not_or] at hkeyword
  obtain ⟨hitems, hadditional, hnegation⟩ := hkeyword
  rcases List.eq_nil_or_concat' steps with rfl | ⟨outer, step, rfl⟩
  · simp [Visit.path]
  · rw [Visit.path_append_singleton, lastKey?_join_segments]
    simp only [List.append_singleton_inj]
    cases step <;> simp [Step.lastKey?, Ne.symm hitems, Ne.symm hadditional, Ne.symm hnegation]

/-- The last key but one of a path is a keyword when the last step goes to an entry under it, or
when it only seems to. -/
theorem parentKey?_path_eq_some_iff
    (hkeyword : keyword ∉ ["items", "additionalProperties", negationKeyword])
    (positive : .negation ∉ steps) :
    ((Visit.mk steps node).path start).parentKey? = some keyword ↔
      IsEntryOf keyword steps ∨ ResemblesEntryOf keyword start steps := by
  rcases List.eq_nil_or_concat' steps with rfl | ⟨before, step, rfl⟩
  · simp [Visit.path, IsEntryOf, ResemblesEntryOf]
  · rw [Visit.path_append_singleton start before step node, parentKey?_join_segments]
    simp only [IsEntryOf, ResemblesEntryOf, List.append_singleton_inj]
    have last : ((Visit.mk before node).path start).lastKey? = some keyword ↔ _ :=
      lastKey?_path_eq_some_iff hkeyword
    cases step with
    | items | additional => simp [Step.holder?, last]
    | negation => simp at positive
    | _ => simp [Step.holder?]

end Schema

end ApiLint
