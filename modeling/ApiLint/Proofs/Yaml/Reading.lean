import ApiLint.Proofs.Decode.Results
import ApiLint.Proofs.Json.DistinctKeys
import ApiLint.Yaml.Reading

/-!
# Values of YAML nodes

A mapping gives each of its keys one member, as a key that is written again only changes the member
that is there.  So no value that is read from a document repeats a key.
-/

namespace ApiLint.Yaml

/-! ## Scalars -/

variable {value : Json}

theorem hasDistinctKeys_of_wholeValue? {n : Int} (h : wholeValue? n = some value) :
    value.hasDistinctKeys := by
  rw [wholeValue?, Option.ite_none_right_eq_some, Option.some.injEq] at h
  exact h.2 ▸ rfl

theorem hasDistinctKeys_of_doubleValue? {text : String} (h : doubleValue? text = some value) :
    value.hasDistinctKeys := by
  unfold doubleValue? at h
  split at h
  · exact Option.some.inj h ▸ rfl
  · obtain ⟨x, -, rfl⟩ := Option.map_eq_some_iff.1 h
    rfl

theorem hasDistinctKeys_of_plainValue? {text : String} (h : plainValue? text = some value) :
    value.hasDistinctKeys := by
  unfold plainValue? at h
  split at h
  · exact Option.some.inj h ▸ rfl
  · split at h
    · exact Option.some.inj h ▸ rfl
    · exact hasDistinctKeys_of_wholeValue? h
    · split at h
      · exact Option.some.inj h ▸ rfl
      · cases hdouble : doubleValue? text with
        | none =>
          rw [hdouble] at h
          exact Option.some.inj h ▸ rfl
        | some double =>
          rw [hdouble] at h
          exact hasDistinctKeys_of_doubleValue? (hdouble.trans h)

theorem hasDistinctKeys_of_scalarValue? {tag : Option String} {text : String} {style : Style}
    (h : scalarValue? tag text style = some value) : value.hasDistinctKeys := by
  cases tag with
  | none =>
    rw [scalarValue?] at h
    split at h
    · exact hasDistinctKeys_of_plainValue? h
    · exact Option.some.inj h ▸ rfl
  | some tag =>
    dsimp only [scalarValue?] at h
    split at h
    · cases h
    split at h
    · obtain ⟨flag, -, rfl⟩ := Option.map_eq_some_iff.1 h
      rfl
    split at h
    · obtain ⟨n, -, hn⟩ := Option.bind_eq_some_iff.1 h
      exact hasDistinctKeys_of_wholeValue? hn
    split at h
    · exact hasDistinctKeys_of_doubleValue? h
    split at h
    · rw [Option.ite_none_right_eq_some, Option.some.injEq] at h
      exact h.2 ▸ rfl
    · exact Option.some.inj h ▸ rfl

/-! ## Containers -/

namespace Located

theorem everyResult_fail {α : Type} (v : Located) (fault : Fault) (p : α → Prop) :
    EveryResult p (v.fail fault) := .of_throw _

theorem everyResult_valueBy (d : Document) {inside : Option (Node → Reading Json)}
    (hinside : ∀ read ∈ inside, ∀ node,
      EveryResult (fun value : Json => value.hasDistinctKeys) (read node)) (v : Located) :
    EveryResult (fun value => value.hasDistinctKeys) (valueBy d inside v) := by
  refine .bind_of_forall fun v => ?_
  split
  · split
    · next value hvalue => exact .pure (hasDistinctKeys_of_scalarValue? hvalue)
    · exact everyResult_fail ..
  · next read _ items _ _ =>
    refine (EveryResult.mapM (hinside read rfl) items).bind fun values hvalues => .pure ?_
    exact (Json.hasDistinctKeys_arr values).2 hvalues
  · next read _ members _ _ =>
    refine (EveryResult.foldlM (q := fun done => (Json.obj done).hasDistinctKeys)
      (fun done (key, node) hdone => ?_) rfl members).bind fun members hmembers => .pure hmembers
    refine .bind_of_forall fun name => (hinside read rfl node).bind fun value hvalue => .pure ?_
    exact Json.hasDistinctKeys_insert hdone hvalue
  · exact everyResult_fail ..

theorem everyResult_valueWithin (d : Document) (place : Option String) (depth : Nat) (node : Node) :
    EveryResult (fun value => value.hasDistinctKeys) (valueWithin d place depth node) := by
  -- the depth goes down where a container is entered, also through an alias
  induction depth generalizing node with
  | zero => exact everyResult_valueBy d (by simp) _
  | succ depth ih => exact everyResult_valueBy d (by simpa using ih) _

end Located

theorem givesOnly_reader (d : Document) :
    (reader d).GivesOnly fun value => value.hasDistinctKeys where
  fail := Located.everyResult_fail
  any v := Located.everyResult_valueWithin d v.place v.depth v.node

end ApiLint.Yaml
