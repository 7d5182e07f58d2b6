import ApiLint.Proofs.Except
import ApiLint.Rule.Registry
import ApiLint.Ruleset.Basic

/-!
# Options that functions accept

Two functions of the library read an option, and both read it before they look at their target, so
whether they fail depends on the options alone.  The other functions never fail.
-/

namespace ApiLint

/-! ## Reading options -/

/-- Whether there is no text to use under a key: the member is absent, null, empty or no text. -/
def lacksText (options : Json) (name : String) : Bool :=
  match options.get? name with
  | some (.str text) => text == ""
  | _ => true

/-- Whether there is something under a key, not null, that is no list of texts only. -/
def hasWrongList (options : Json) (name : String) : Bool :=
  match options.get? name with
  | none | some .null => false
  | some (.arr items) => items.any (·.str?.isNone)
  | some _ => true

theorem isOk_requiredText (options : Json) (name : String) (site : Site) :
    (requiredText options name site).isOk = !lacksText options name := by
  unfold requiredText lacksText
  cases options.get? name with
  | none => rfl
  | some value =>
    cases value with
    | str text =>
      by_cases hempty : text = ""
      · rw [hempty]
        rfl
      · simp only [beq_eq_false_iff_ne.2 hempty]
        rfl
    | _ => rfl

theorem isOk_textItems (name : String) (site : Site) (items : List Json) :
    (textItems name site items).isOk = !items.any (·.str?.isNone) := by
  induction items with
  | nil => rfl
  | cons item rest ih =>
    cases item with
    | str text =>
      rw [textItems, map_eq_pure_bind]
      exact (isOk_bind_pure _ _).trans ih
    | _ => rfl

theorem isOk_optionalTexts (options : Json) (name : String) (site : Site) :
    (optionalTexts options name site).isOk = !hasWrongList options name := by
  unfold optionalTexts hasWrongList
  cases options.get? name with
  | none => rfl
  | some value =>
    cases value with
    | arr items => exact isOk_textItems name site items
    | _ => rfl

theorem textItems_eq_ok {items : List Json} (h : items.any (·.str?.isNone) = false) (name : String)
    (site : Site) : textItems name site items = .ok (items.filterMap Json.str?) := by
  induction items with
  | nil => rfl
  | cons item rest ih =>
    cases item with
    | str text =>
      rw [List.any_cons, Bool.or_eq_false_iff] at h
      rw [textItems, ih h.2]
      rfl
    | _ => cases h

/-- A list of texts is read as it stands, and a missing one as an empty list. -/
theorem optionalTexts_eq_ok {options : Json} {name : String} (h : hasWrongList options name = false)
    (site : Site) :
    optionalTexts options name site = .ok ((options.itemsAt name).filterMap Json.str?) := by
  unfold optionalTexts Json.itemsAt
  unfold hasWrongList at h
  cases hget : options.get? name with
  | none => rfl
  | some value =>
    rw [hget] at h
    cases value with
    | null => rfl
    | arr items => exact textItems_eq_ok h name site
    | _ => cases h

/-! ## Functions -/

/-- Whether the function of a rule is one of the library that cannot work with these options. -/
def RuleAction.hasWrongOptions (action : RuleAction) : Bool :=
  (action.function == Rule.DisallowedHeader.function.name &&
      lacksText action.options Rule.DisallowedHeader.option) ||
    (action.function == Rule.RefSiblings.function.name &&
      hasWrongList action.options Rule.RefSiblings.option)

variable {target options : Json} {site : Site}

theorem isOk_disallowedHeader :
    (Rule.DisallowedHeader.function.check target options site).isOk =
      !lacksText options Rule.DisallowedHeader.option :=
  (isOk_bind_pure _ _).trans (isOk_requiredText _ _ _)

theorem isOk_refSiblings :
    (Rule.RefSiblings.function.check target options site).isOk =
      !hasWrongList options Rule.RefSiblings.option :=
  (isOk_bind_pure _ _).trans (isOk_optionalTexts _ _ _)

/-- Whatever a function of the library looks at, it fails on wrong options and on no others. -/
theorem isOk_check_of_mem_builtinFunctions {function : RuleFunction}
    (h : function ∈ builtinFunctions) (target options : Json) (site : Site) :
    (function.check target options site).isOk =
      !RuleAction.hasWrongOptions ⟨function.name, options⟩ := by
  simp only [builtinFunctions, List.mem_cons, List.not_mem_nil, or_false] at h
  obtain rfl | rfl | rfl | rfl | rfl | rfl | rfl | rfl | rfl | rfl := h
  · rfl
  · refine isOk_disallowedHeader.trans (congrArg not ?_)
    exact (Bool.or_false _).symm
  · rfl
  · rfl
  · rfl
  · rfl
  · exact isOk_refSiblings
  · rfl
  · rfl
  · rfl

end ApiLint
