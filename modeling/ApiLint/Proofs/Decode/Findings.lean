import ApiLint.Decode.Findings
import ApiLint.Proofs.Except
import Mathlib.Algebra.Order.Ring.Int
import Mathlib.Data.Set.List

/-!
# Findings that are exchanged

A path has one JSON form, and this is the only value from which the path is read: strings are keys
and whole numbers are indices, so that a key of digits and an index are never confused.  Diagnostics
and findings are read back from what is written for them.
-/

namespace ApiLint

/-! ## Paths -/

theorem Segment.ofJson_eq_ok_iff (value : Json) (step : Segment) :
    ofJson value = .ok step ↔ value = step.toJson := by
  constructor
  · intro h
    cases value with
    | str name =>
      cases h
      rfl
    | num number =>
      cases number with
      | int n =>
        rw [ofJson] at h
        split at h
        · next hn =>
          cases h
          rw [toJson, Int.toNat_of_nonneg hn]
        · cases h
      | double x => cases h
    | _ => cases h
  · rintro rfl
    cases step with
    | index i => simp [toJson, ofJson, pure, Except.pure]
    | key name => rfl

theorem Path.ofJson_eq_ok_iff {value : Json} {path : Path} :
    ofJson value = .ok path ↔ value = path.toJson := by
  obtain ⟨steps⟩ := path
  cases value with
  | arr items =>
    rw [ofJson, toJson, Json.arr.injEq, ← mapM_eq_ok_iff Segment.ofJson_eq_ok_iff]
    cases items.mapM Segment.ofJson with
    | error fault => simp
    | ok found => simp
  | _ => simp [ofJson, toJson]

theorem Path.ofJson_toJson (path : Path) : ofJson path.toJson = .ok path :=
  ofJson_eq_ok_iff.2 rfl

/-- The elements that a path can be read from. -/
theorem Path.exists_ofJson_eq_ok_iff {items : List Json} :
    (∃ path, ofJson (.arr items) = .ok path) ↔
      ∀ item ∈ items, ∃ step : Segment, item = step.toJson := by
  have written : (∃ path, ofJson (.arr items) = .ok path) ↔
      items ∈ Set.range (List.map Segment.toJson) := by
    simp only [ofJson_eq_ok_iff, toJson, Json.arr.injEq, Set.mem_range]
    exact ⟨fun ⟨path, h⟩ => ⟨path.segments, h.symm⟩, fun ⟨steps, h⟩ => ⟨⟨steps⟩, h.symm⟩⟩
  rw [written, Set.range_list_map]
  simp only [Set.mem_ofPred_eq, Set.mem_range, eq_comm]

/-! ## Records -/

theorem Severity.ofJson_choices (severity : Severity) :
    Severity.choices.ofJson (.str severity.text) = .ok severity := by
  cases severity <;> rfl

theorem Diagnostic.fields_toJson (d : Diagnostic) :
    FindingFields.ofJson ["message", "path"] d.toJson =
      .ok { message := some d.message, path := some d.path } := by
  simp [toJson, FindingFields.ofJson, FindingFields.read, FindingFields.text,
    d.path.ofJson_toJson, pure, Except.pure, bind, Except.bind]

theorem Diagnostic.ofJson_toJson (d : Diagnostic) : ofJson d.toJson = .ok d := by
  rw [ofJson, d.fields_toJson]
  rfl

theorem Finding.fields_toJson (f : Finding) :
    FindingFields.ofJson ["rule_id", "severity", "message", "path"] f.toJson =
      .ok { ruleId := some f.ruleId, severity := some f.severity, message := some f.message,
            path := some f.path } := by
  simp [toJson, FindingFields.ofJson, FindingFields.read, FindingFields.text,
    f.severity.ofJson_choices, f.path.ofJson_toJson, pure, Except.pure, bind, Except.bind]

theorem Finding.ofJson_toJson (f : Finding) : ofJson f.toJson = .ok f := by
  rw [ofJson, f.fields_toJson]
  rfl

/-! ## Exchange -/

/-- The whole numbers that a step can be read from, when they have at most 64 bits. -/
theorem Segment.exists_toJson_iff {value : Json}
    (bounded : ∀ n : Int, value = .num (.int n) → n < 2 ^ 64) :
    (∃ step : Segment, value = step.toJson) ↔
      (∃ text, value = .str text) ∨ ∃ n : UInt64, value = .num (.int n.toNat) := by
  constructor
  · rintro ⟨i | name, rfl⟩
    · have hlt : i < 2 ^ 64 := by exact_mod_cast bounded i rfl
      refine .inr ⟨.ofNatLT i hlt, ?_⟩
      rw [UInt64.toNat_ofNatLT]
      rfl
    · exact .inl ⟨name, rfl⟩
  · rintro (⟨text, rfl⟩ | ⟨n, rfl⟩)
    · exact ⟨.key text, rfl⟩
    · exact ⟨.index n.toNat, rfl⟩

/-- Paths, diagnostics and findings are read back from what is written for them.  A path is read
from an array exactly when every element is a text or a whole number that is not negative (those of
a value have at most 64 bits), and then this array is what is written for the path. -/
theorem exchange_keeps_findings :
    (∀ path : Path, Path.ofJson path.toJson = .ok path) ∧
      (∀ d : Diagnostic, Diagnostic.ofJson d.toJson = .ok d) ∧
      (∀ f : Finding, Finding.ofJson f.toJson = .ok f) ∧
      (∀ items : List Json, (∀ n : Int, .num (.int n) ∈ items → n < 2 ^ 64) →
        ((∃ path, Path.ofJson (.arr items) = .ok path) ↔
          ∀ item ∈ items, (∃ text, item = .str text) ∨
            ∃ n : UInt64, item = .num (.int n.toNat))) ∧
      ∀ (items : List Json) (path : Path), Path.ofJson (.arr items) = .ok path →
        path.toJson = .arr items := by
  refine ⟨Path.ofJson_toJson, Diagnostic.ofJson_toJson, Finding.ofJson_toJson,
    fun items bounded => ?_, fun items path h => (Path.ofJson_eq_ok_iff.1 h).symm⟩
  rw [Path.exists_ofJson_eq_ok_iff]
  refine forall₂_congr fun item hitem => Segment.exists_toJson_iff fun n hn => ?_
  exact bounded n (hn ▸ hitem)

/-- A key of digits beside the index that it looks like, and the greatest index.  One more element
that is no step spoils the path. -/
theorem ofJson_of_digits_and_indices :
    let items : List Json := [.str "0", .num (.int 0), .num (.int 18446744073709551615)]
    let path : Path := ⟨[.key "0", .index 0, .index 18446744073709551615]⟩
    (∀ n : Int, .num (.int n) ∈ items → n < 2 ^ 64) ∧ Path.ofJson (.arr items) = .ok path ∧
      path.toJson = .arr items ∧
      ¬∃ found, Path.ofJson (.arr (items ++ [.num (.int (-1))])) = .ok found := by
  intro items path
  have bounded : ∀ n : Int, .num (.int n) ∈ items ++ [.num (.int (-1))] → n < 2 ^ 64 := by
    intro n hn
    simp [items] at hn
    omega
  obtain ⟨paths, -, -, read, written⟩ := exchange_keeps_findings
  have hread : Path.ofJson (.arr items) = .ok path := paths path
  refine ⟨fun n hn => bounded n (List.mem_append_left _ hn), hread, written items path hread, ?_⟩
  intro hfound
  rcases (read _ bounded).1 hfound (.num (.int (-1))) (by simp) with ⟨text, h⟩ | ⟨n, h⟩
  · cases h
  · rw [Json.num.injEq, Number.int.injEq] at h
    omega

end ApiLint
