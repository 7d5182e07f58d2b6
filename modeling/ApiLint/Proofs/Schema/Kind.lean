import ApiLint.Proofs.Schema.Lifting
import ApiLint.Schema.Kind
import Mathlib.Data.List.Basic

/-!
# The most specific kind

A formatted kind is a special case of a base kind: a node that fits the one fits the other, and so
does every composition.  As the special cases are tried before their bases, the first kind that
covers a schema is one that none of its special cases covers.
-/

namespace ApiLint.Schema.Kind

variable {schema node : Json} {kind base : Kind}

/-- The kind that a more specific one is a special case of. -/
def base? : Kind → Option Kind
  | .binary | .byte | .date | .dateTime | .enumeration => some .string
  | .int32 | .int64 => some .integer
  | .float | .double => some .number
  | .array | .boolean | .integer | .number | .object | .string => none

/-! ## Special cases -/

theorem hasType_of_hasFormat {type format : String} (h : hasFormat node type format) :
    hasType node type :=
  (Bool.and_eq_true_iff.1 h).1

theorem fits_base (hbase : kind.base? = some base) (h : kind.fits node) : base.fits node := by
  cases kind with
  | array | boolean | integer | number | object | string => cases hbase
  | enumeration =>
    cases hbase
    exact (Bool.and_eq_true_iff.1 h).1
  | binary | byte | date | dateTime | double | float | int32 | int64 =>
    cases hbase
    exact hasType_of_hasFormat h

/-- A special case that is spread over a composition is still one. -/
theorem covers_base (hbase : kind.base? = some base) (h : kind.covers schema) :
    base.covers schema :=
  lift_mono (fun _ _ _ => fits_base hbase) h

/-- A kind that is neither that of arrays nor that of objects is a primitive one or a special case
of one. -/
theorem getD_base?_mem (hkind : kind ∉ [.array, .object]) :
    kind.base?.getD kind ∈ [Kind.boolean, .integer, .number, .string] := by
  revert hkind
  cases kind <;> decide

theorem isPrimitive_of_covers (hkind : kind ∉ [.array, .object]) (h : kind.covers schema) :
    isPrimitive schema := by
  refine List.any_eq_true.2 ⟨_, getD_base?_mem hkind, ?_⟩
  cases hbase : kind.base? with
  | none => exact h
  | some base => exact covers_base hbase h

/-! ## The first kind -/

/-- What is found is not preceded by anything else that could have been found. -/
theorem not_of_find?_eq_some {α : Type} [BEq α] [LawfulBEq α] {items : List α} {p : α → Bool}
    {earlier found : α} (h : items.find? p = some found)
    (hlt : items.idxOf earlier < items.idxOf found) : ¬p earlier := by
  obtain ⟨-, before, after, rfl, hbefore⟩ := List.find?_eq_some_iff_append.1 h
  suffices hmem : earlier ∈ before by simpa using hbefore earlier hmem
  by_contra habsent
  have hfound : (before ++ found :: after).idxOf found ≤ before.length := by
    by_cases hmem : found ∈ before
    · rw [List.idxOf_append_of_mem hmem]
      exact List.idxOf_le_length
    · have hfirst : (before ++ found :: after).idxOf found = before.length := by
        rw [List.idxOf_append_of_notMem hmem, List.idxOf_cons_self, Nat.add_zero]
      exact Nat.le_of_eq hfirst
  rw [List.idxOf_append_of_notMem habsent] at hlt
  omega

/-- The kind of a schema covers it, and no kind that is tried before does. -/
theorem covers_of_of?_eq_some (h : of? schema = some kind) :
    kind.covers schema ∧
      ∀ earlier, all.idxOf earlier < all.idxOf kind → ¬earlier.covers schema := by
  let p (kind : Kind) : Bool := kind.covers schema
  exact ⟨List.find?_some (p := p) h, fun _ => not_of_find?_eq_some (p := p) h⟩

/-- Special cases are tried before their bases. -/
theorem idxOf_lt_of_base? (hbase : kind.base? = some base) :
    all.idxOf kind < all.idxOf base := by
  cases kind <;> cases hbase <;> decide

theorem mem_all (kind : Kind) : kind ∈ all := by
  cases kind <;> decide

theorem of?_eq_none_iff :
    of? schema = none ↔
      ¬isPrimitive schema ∧ ¬Kind.array.covers schema ∧ ¬Kind.object.covers schema := by
  rw [of?, List.find?_eq_none]
  constructor
  · intro h
    refine ⟨fun hprimitive => ?_, h _ (mem_all _), h _ (mem_all _)⟩
    obtain ⟨kind, -, hcovers⟩ := List.any_eq_true.1 hprimitive
    exact h kind (mem_all kind) hcovers
  · rintro ⟨hprimitive, harray, hobject⟩ kind - hcovers
    refine hprimitive (isPrimitive_of_covers (fun hmem => ?_) hcovers)
    simp only [List.mem_cons, List.not_mem_nil, or_false] at hmem
    obtain rfl | rfl := hmem
    · exact harray hcovers
    · exact hobject hcovers

/-- A schema of a special kind is of its base kind too, and a primitive one, whatever it is composed
of.  The kind of a schema covers it, and none of the special cases of that kind does.  A schema has
no kind only when it is neither primitive nor an array nor an object. -/
theorem kind_is_most_specific (schema : Json) :
    (∀ kind base : Kind, kind.base? = some base → kind.covers schema → base.covers schema) ∧
      (∀ kind : Kind, kind ∉ [.array, .object] → kind.covers schema → isPrimitive schema) ∧
      (∀ kind : Kind, of? schema = some kind →
        kind.covers schema ∧ ∀ special : Kind, special.base? = some kind → ¬special.covers schema) ∧
      (of? schema = none ↔
        ¬isPrimitive schema ∧ ¬Kind.array.covers schema ∧ ¬Kind.object.covers schema) := by
  refine ⟨fun _ _ => covers_base, fun _ => isPrimitive_of_covers, fun kind hkind => ?_,
    of?_eq_none_iff⟩
  obtain ⟨hcovers, earlier⟩ := covers_of_of?_eq_some hkind
  exact ⟨hcovers, fun special hspecial => earlier special (idxOf_lt_of_base? hspecial)⟩

/-- Alternatives that are different special cases leave their base. -/
theorem of?_of_different_alternatives :
    let whole (format : String) : Json :=
      .obj [("type", .str "integer"), ("format", .str format)]
    let schema : Json := .obj [("oneOf", .arr [whole "int32", .obj [("allOf", .arr
      [whole "int64"])]])]
    of? schema = some .integer ∧ integer.covers schema ∧ isPrimitive schema ∧
      ¬int32.covers schema ∧ ¬int64.covers schema := by
  intro whole schema
  obtain ⟨-, primitive, specific, -⟩ := kind_is_most_specific schema
  have hkind : of? schema = some .integer := by decide +kernel
  obtain ⟨hcovers, special⟩ := specific .integer hkind
  exact ⟨hkind, hcovers, primitive .integer (by decide) hcovers, special .int32 rfl,
    special .int64 rfl⟩

end ApiLint.Schema.Kind
