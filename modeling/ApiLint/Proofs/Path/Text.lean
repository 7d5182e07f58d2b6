import ApiLint.Path.Resolve

/-!
# Paths and their texts

An index and a key that is written like it find the same element of a list and the same member of
an object.  So where a path leads depends on the texts of its steps only.
-/

namespace ApiLint

/-! ## Numerals -/

/-- A key of decimal digits stands for their value. -/
theorem Segment.indexOfKey?_of_digits {name : String} (hne : name.toList ≠ [])
    (digits : ∀ c ∈ name.toList, c.isDigit) :
    Segment.indexOfKey? name = some (Nat.ofDigitChars 10 name.toList 0) := by
  rw [Nat.ofDigitChars_eq_foldl]
  cases hname : name.toList with
  | nil => exact absurd hname hne
  | cons c cs =>
    rw [hname, List.forall_mem_cons] at digits
    have unsigned : c ≠ '+' := by
      rintro rfl
      exact absurd digits.1 (by decide)
    simpa [Segment.indexOfKey?, hname, unsigned, Nat.mul_comm] using digits

theorem toList_toString (i : Nat) : (toString i).toList = Nat.toDigits 10 i := by
  rw [Nat.toString_eq_ofList_toDigits, String.toList_ofList]

/-- The key that is written like an index stands for that index. -/
theorem Segment.indexOfKey?_toString (i : Nat) : Segment.indexOfKey? (toString i) = some i := by
  have digits : ∀ c ∈ (toString i).toList, c.isDigit := fun c hc => by
    rw [toList_toString] at hc
    exact Nat.isDigit_of_mem_toDigits (by decide) (by decide) hc
  rw [Segment.indexOfKey?_of_digits (toList_toString i ▸ Nat.toDigits_ne_nil) digits,
    toList_toString, Nat.ofDigitChars_ten_toDigits]

/-! ## Steps -/

namespace Json

theorem step?_key_text (node : Json) (step : Segment) :
    node.step? (.key step.text) = node.step? step := by
  cases step with
  | key name => rfl
  | index i =>
    cases node with
    | arr items =>
      change (Segment.indexOfKey? (toString i)).bind _ = _
      rw [Segment.indexOfKey?_toString]
      rfl
    | _ => rfl

/-- Steps with the same texts lead to the same node. -/
theorem follow?_eq_of_texts {first second : List Segment}
    (h : first.map Segment.text = second.map Segment.text) (node : Json) :
    node.follow? first = node.follow? second := by
  induction first generalizing second node with
  | nil =>
    cases second with
    | nil => rfl
    | cons step rest => cases h
  | cons step rest ih =>
    cases second with
    | nil => cases h
    | cons other more =>
      rw [List.map_cons, List.map_cons, List.cons.injEq] at h
      have same : node.step? step = node.step? other := by
        rw [← step?_key_text, ← step?_key_text node other, h.1]
      rw [follow?_cons, follow?_cons, same]
      exact congrArg _ (funext (ih h.2))

end Json

end ApiLint
