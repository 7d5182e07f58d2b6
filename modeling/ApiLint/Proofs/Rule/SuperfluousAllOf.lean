import ApiLint.Proofs.Schema.Compositional
import ApiLint.Rule.SuperfluousAllOf

/-!
# Superfluous `allOf` may be left out

The rule reports each schema that is nothing but an `allOf` of one branch, at any depth of a
composition and inside negations.  With the branch in its place, every query about kinds and
properties has the answer that it had before.  (Whether a schema is written as a composition at all
is a question about its text, and not among them.)
-/

namespace ApiLint.Rule.SuperfluousAllOf

open Schema

variable {target : Json} {path : Path}

theorem isWrapper_iff {node : Json} : isWrapper node ↔ ∃ branch, node = wrapper branch := by
  constructor
  · intro h
    rw [isWrapper, Bool.and_eq_true, beq_iff_eq, beq_iff_eq, List.length_eq_one_iff,
      List.length_eq_one_iff] at h
    obtain ⟨⟨branch, hbranch⟩, ⟨key, value⟩, hmember⟩ := h
    cases node with
    | obj members =>
      obtain rfl : members = [(key, value)] := hmember
      have hitem : (Applicator.allOf.branches (.obj [(key, value)]))[0]? = some branch := by
        rw [hbranch, List.getElem?_cons_zero]
      have hget : (Json.obj [(key, value)]).get? Applicator.allOf.keyword = some (.arr [branch]) :=
        hbranch ▸ Json.get?_eq_arr_of_itemsAt hitem
      rw [Json.get?, Entries.lookup_cons] at hget
      split at hget
      · next hkey =>
        obtain rfl := Option.some.inj hget
        exact ⟨branch, by rw [← hkey, wrapper]⟩
      · cases hget
    | _ => cases hmember
  · rintro ⟨branch, rfl⟩
    rfl

/-- A diagnostic is at the keyword of a wrapper that steps within the composition lead to. -/
theorem exists_wrapper_of_mem_diagnostics {d : Diagnostic} (h : d ∈ diagnostics target path) :
    ∃ steps branch, (composition true).Leads target steps (wrapper branch) ∧
      d.path = (path.join (steps.flatMap Step.segments)).member Applicator.allOf.keyword := by
  obtain ⟨visit, hvisit, hd⟩ := List.mem_filterMap.1 h
  rw [Option.ite_none_right_eq_some, isWrapper_iff] at hd
  obtain ⟨⟨branch, hbranch⟩, hd⟩ := hd
  have hleads : (composition true).Leads target visit.steps visit.node := by
    change visit ∈ visitsThrough (composition true) target at hvisit
    unfold visitsThrough at hvisit
    split at hvisit
    · exact (Descent.mem_visits_iff.1 hvisit).of_only
    · cases hvisit
  cases hd
  exact ⟨visit.steps, branch, hbranch ▸ hleads, rfl⟩

theorem follow?_of_leads {node : Json} {steps : List Step}
    (h : (composition true).Leads target steps node) :
    target.follow? (steps.flatMap Step.segments) = some node := by
  induction h with
  | here => rfl
  | step edge _ ih =>
    have hinner := Step.follow?_segments (mem_composition_iff.1 edge).2
    rw [List.flatMap_cons, Json.follow?_append, hinner, Option.bind_some, ih]

/-- No wrapper within the composition is passed over. -/
theorem mem_paths_diagnostics {steps : List Step} {branch : Json}
    (hsteps : ∀ step ∈ steps, step.isComposition)
    (h : at? target steps = some (wrapper branch)) :
    (path.join (steps.flatMap Step.segments)).member Applicator.allOf.keyword ∈
      (diagnostics target path).map Diagnostic.path := by
  have hvisit : ⟨steps, wrapper branch⟩ ∈ composedVisits true true target := by
    change _ ∈ visitsThrough (composition true) target
    rw [visitsThrough, if_pos (isObj_of_at? h).1]
    exact Descent.mem_visits_iff.2 (leads_of_at? hsteps h)
  exact List.mem_map.2 ⟨_, List.mem_filterMap.2 ⟨_, hvisit, if_pos rfl⟩, rfl⟩

/-- The diagnostics are at the keywords of the schemas within the composition that are nothing but
an `allOf` of one branch.  With the branch in place of such a schema, the target answers all queries
as before. -/
theorem reported_wrappers_are_superfluous (target options : Json) (site : Site) :
    ∃ found, function.check target options site = .ok found ∧
      (∀ d ∈ found, ∃ place branch,
        d.path = (site.path.join place).member Applicator.allOf.keyword ∧
          target.follow? place = some (wrapper branch) ∧
          (target.replaceAt place branch).follow? place = some branch ∧
          AnswersAlike (target.replaceAt place branch) target) ∧
      ∀ steps branch, (∀ step ∈ steps, step.isComposition) →
        at? target steps = some (wrapper branch) →
          (site.path.join (steps.flatMap Step.segments)).member Applicator.allOf.keyword ∈
            found.map Diagnostic.path := by
  refine ⟨diagnostics target site.path, rfl, fun d hd => ?_, fun _ _ => mem_paths_diagnostics⟩
  obtain ⟨steps, branch, hleads, hpath⟩ := exists_wrapper_of_mem_diagnostics hd
  have hplace := follow?_of_leads hleads
  refine ⟨steps.flatMap Step.segments, branch, hpath, hplace, Json.follow?_replaceAt hplace, ?_⟩
  exact answersAlike_of_compositional fun h => h.replaceAt hleads (h.unwrap branch).symm

/-- An alternative that is wrapped may as well stand for itself. -/
theorem answersAlike_of_wrapped_alternative :
    let text : Json := .obj [("type", .str "string")]
    let target : Json := .obj [("oneOf", .arr [text, wrapper text]), ("not", wrapper text)]
    AnswersAlike (.obj [("oneOf", .arr [text, text]), ("not", wrapper text)]) target := by
  intro text target
  obtain ⟨found, hfound, superfluous, -⟩ :=
    reported_wrappers_are_superfluous target .null (.of "sole" target .root)
  cases hfound
  obtain ⟨place, branch, hpath, hwrapper, -, alike⟩ := superfluous
    ⟨"allOf with a single schema and no sibling keywords is superfluous",
      ⟨[.key "oneOf", .index 1, .key "allOf"]⟩⟩ (by decide +kernel)
  have hplace : [.key "oneOf", .index 1] = place :=
    List.append_cancel_right (congrArg Path.segments hpath)
  subst hplace
  cases hwrapper
  exact alike

end ApiLint.Rule.SuperfluousAllOf
