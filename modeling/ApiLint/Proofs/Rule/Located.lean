import ApiLint.Proofs.Document.Walk
import ApiLint.Proofs.Except
import ApiLint.Proofs.Schema.Place
import ApiLint.Rule.Registry

/-!
# Where diagnostics are

Every library function that looks at a node of a document places its diagnostics at nodes of the
same document: the traversals come to nodes at the paths they build, and what a function adds to
such a path is a key or an index that it has just found there.
-/

namespace ApiLint

open Schema

variable {document target : Json} {path : Path} {d : Diagnostic}

/-! ## Visits -/

namespace Located

theorem visitThrough {descent : Descent Step} {visit : Visit Step}
    (h : Located document path target) (placed : descent.IsPlacedBy Step.segments)
    (hvisit : visit ∈ visitsThrough descent target) :
    Located document (visit.path path) visit.node := by
  unfold visitsThrough at hvisit
  split at hvisit
  · refine h.join ((placed.only Json.isObj).follow?_of_leads ?_ h.hasDistinctKeys)
    exact Descent.mem_visits_iff.1 hvisit
  · cases hvisit

theorem nestedVisit {withSelf withNegation : Bool} {visit : Visit Step}
    (h : Located document path target)
    (hvisit : visit ∈ nestedVisits withSelf withNegation target) :
    Located document (visit.path path) visit.node :=
  h.visitThrough (selects_nesting withNegation).isPlacedBy (List.mem_filter.1 hvisit).1

theorem composedVisit {withSelf withNegation : Bool} {visit : Visit Step}
    (h : Located document path target)
    (hvisit : visit ∈ composedVisits withSelf withNegation target) :
    Located document (visit.path path) visit.node := by
  refine h.visitThrough (selects_composition withNegation).isPlacedBy ?_
  unfold composedVisits at hvisit
  split at hvisit
  · exact hvisit
  · exact List.mem_of_mem_tail hvisit

theorem singleKindVisit {visit : Visit Step} (h : Located document path target)
    (hvisit : visit ∈ singleKindVisits target) : Located document (visit.path path) visit.node :=
  h.visitThrough selectsAt_singleKind.isPlacedBy hvisit

theorem container {visit : Visit Segment} (h : Located document path target)
    (hvisit : visit ∈ Document.containers target) :
    Located document (path.join visit.steps) visit.node :=
  h.join (Document.follow?_of_mem_containers h.hasDistinctKeys hvisit)

end Located

/-! ## Diagnostics of nodes -/

/-- The path of the diagnostic leads to a node of the document. -/
def Diagnostic.IsIn (d : Diagnostic) (document : Json) : Prop :=
  ∃ node, Located document d.path node

theorem isIn_arrayOfArrays {node : Json} (h : Located document path node)
    (hd : d ∈ Rule.ArrayOfArrays.ofNode node path) : d.IsIn document := by
  unfold Rule.ArrayOfArrays.ofNode at hd
  rw [List.mem_ite_nil_right, Option.any_eq_true, List.mem_singleton] at hd
  obtain ⟨⟨items, hitems, -⟩, rfl⟩ := hd
  exact ⟨items, h.member hitems⟩

theorem isIn_disallowedHeader {header : String} (h : Located document path target)
    (hd : d ∈ Rule.DisallowedHeader.diagnostics header target path) : d.IsIn document := by
  unfold Rule.DisallowedHeader.diagnostics at hd
  split at hd
  · next name hname =>
    rw [List.mem_ite_nil_right, List.mem_singleton] at hd
    obtain ⟨-, rfl⟩ := hd
    exact h.exists_member hname
  · cases hd

theorem isIn_minMaxPair {node : Json} {lower upper : String} (h : Located document path node)
    (hd : d ∈ Rule.MinMaxConsistency.ofPair node path lower upper) : d.IsIn document := by
  unfold Rule.MinMaxConsistency.ofPair at hd
  split at hd
  · next least _ hleast _ =>
    rw [List.mem_ite_nil_right, List.mem_singleton] at hd
    obtain ⟨-, rfl⟩ := hd
    obtain ⟨number, hnumber, -⟩ := Option.bind_eq_some_iff.1 hleast
    exact h.exists_member hnumber
  · cases hd

theorem isIn_minMaxConsistency {node : Json} (h : Located document path node)
    (hd : d ∈ Rule.MinMaxConsistency.ofNode node path) : d.IsIn document := by
  obtain ⟨⟨lower, upper⟩, -, hd⟩ := List.mem_flatMap.1 hd
  exact isIn_minMaxPair h hd

theorem isIn_propertyConsistentType {node : Json} {logical : Path}
    (h : Located document path node)
    (hd : d ∈ Rule.PropertyConsistentType.conflicts node path logical) : d.IsIn document := by
  obtain ⟨name, -, hd⟩ := List.mem_filterMap.1 hd
  rw [Option.ite_none_right_eq_some, Option.some.injEq] at hd
  obtain ⟨-, rfl⟩ := hd
  exact ⟨node, h⟩

theorem isIn_propertyDescription {node : Json} {logical : Path} (h : Located document path node)
    (hd : d ∈ Rule.PropertyDescription.ofVisit node path logical) : d.IsIn document := by
  unfold Rule.PropertyDescription.ofVisit at hd
  rw [List.mem_ite_nil_left, List.mem_singleton] at hd
  obtain ⟨-, rfl⟩ := hd
  exact ⟨node, h⟩

theorem isIn_refPattern {version : Version} {node : Json} (h : Located document path node)
    (hd : d ∈ Rule.RefPattern.ofNode version node path) : d.IsIn document := by
  unfold Rule.RefPattern.ofNode at hd
  split at hd
  · next reference _ hreference _ =>
    rw [List.mem_ite_nil_right, List.mem_singleton] at hd
    obtain ⟨-, rfl⟩ := hd
    exact h.exists_member hreference
  · cases hd

theorem isIn_refSiblings {allowed : List String} {node : Json} (h : Located document path node)
    (hd : d ∈ Rule.RefSiblings.ofNode allowed node path) : d.IsIn document := by
  unfold Rule.RefSiblings.ofNode at hd
  rw [List.mem_ite_nil_right, List.mem_filterMap] at hd
  obtain ⟨-, ⟨key, inner⟩, hmem, hd⟩ := hd
  rw [Option.ite_none_right_eq_some, Option.some.injEq] at hd
  obtain ⟨-, rfl⟩ := hd
  cases node with
  | obj members => exact ⟨inner, h.member_of_mem hmem⟩
  | _ => cases hmem

theorem isIn_requiredPropertyDefined {schema branch : Json} (h : Located document path branch)
    (hd : d ∈ Rule.RequiredPropertyDefined.ofBranch schema branch path) : d.IsIn document := by
  obtain ⟨⟨item, i⟩, hitem, hd⟩ := List.mem_filterMap.1 hd
  obtain ⟨name, -, hd⟩ := Option.bind_eq_some_iff.1 hd
  rw [Option.ite_none_left_eq_some, Option.some.injEq] at hd
  obtain ⟨-, rfl⟩ := hd
  exact ⟨item, h.itemAt (List.mk_mem_zipIdx_iff_getElem?.1 hitem)⟩

theorem isIn_superfluousAllOf {node : Json} (h : Located document path node)
    (hwrapper : Rule.SuperfluousAllOf.isWrapper node) :
    ∃ inner, Located document (path.member Applicator.allOf.keyword) inner := by
  unfold Rule.SuperfluousAllOf.isWrapper at hwrapper
  rw [Bool.and_eq_true, beq_iff_eq] at hwrapper
  obtain ⟨branch, hbranches⟩ := List.length_eq_one_iff.1 hwrapper.1
  have hfirst : (node.itemsAt Applicator.allOf.keyword)[0]? = some branch := by
    show (Applicator.allOf.branches node)[0]? = some branch
    rw [hbranches]
    rfl
  exact ⟨_, h.member (Json.get?_eq_arr_of_itemsAt hfirst)⟩

/-! ## Rule functions -/

/-- Whatever its options, the function places its diagnostics of a target at nodes of the document
that the target stands in. -/
def RuleFunction.IsAnchored (function : RuleFunction) : Prop :=
  ∀ ⦃target options : Json⦄ ⦃site : Site⦄ ⦃diagnostics : List Diagnostic⦄,
    function.check target options site = .ok diagnostics → Located site.document site.path target →
      ∀ d ∈ diagnostics, d.IsIn site.document

theorem isAnchored_arrayOfArrays : Rule.ArrayOfArrays.function.IsAnchored := by
  rintro target _ site _ ⟨⟩ h d hd
  obtain ⟨outer, houter, hd⟩ := List.mem_flatMap.1 hd
  unfold Rule.ArrayOfArrays.ofSchema at hd
  rw [List.mem_ite_nil_right, List.mem_flatMap] at hd
  obtain ⟨-, branch, hbranch, hd⟩ := hd
  exact isIn_arrayOfArrays ((h.nestedVisit houter).composedVisit hbranch) hd

theorem isAnchored_disallowedHeader : Rule.DisallowedHeader.function.IsAnchored := by
  intro target options site _ hcheck h d hd
  obtain ⟨header, -, ⟨⟩⟩ := bind_eq_ok_iff.1 hcheck
  exact isIn_disallowedHeader h hd

theorem isAnchored_minMaxConsistency : Rule.MinMaxConsistency.function.IsAnchored := by
  rintro target _ site _ ⟨⟩ h d hd
  obtain ⟨visit, hvisit, hd⟩ := List.mem_flatMap.1 hd
  exact isIn_minMaxConsistency (h.container hvisit) hd

theorem isAnchored_propertyConsistentType : Rule.PropertyConsistentType.function.IsAnchored := by
  rintro target _ site _ ⟨⟩ h d hd
  obtain ⟨outer, houter, hd⟩ := List.mem_flatMap.1 hd
  obtain ⟨branch, hbranch, hd⟩ := List.mem_flatMap.1 hd
  rw [List.mem_ite_nil_left] at hd
  exact isIn_propertyConsistentType ((h.nestedVisit houter).composedVisit hbranch) hd.2

theorem isAnchored_propertyDescription : Rule.PropertyDescription.function.IsAnchored := by
  rintro target _ site _ ⟨⟩ h d hd
  obtain ⟨visit, hvisit, hd⟩ := List.mem_flatMap.1 hd
  exact isIn_propertyDescription (h.nestedVisit hvisit) hd

theorem isAnchored_refPattern : Rule.RefPattern.function.IsAnchored := by
  rintro target _ site _ ⟨⟩ h d hd
  unfold Rule.RefPattern.diagnostics at hd
  rw [List.mem_ite_nil_left, List.mem_flatMap] at hd
  obtain ⟨-, visit, hvisit, hd⟩ := hd
  exact isIn_refPattern (h.container hvisit) hd

theorem isAnchored_refSiblings : Rule.RefSiblings.function.IsAnchored := by
  intro target options site _ hcheck h d hd
  obtain ⟨allowed, -, ⟨⟩⟩ := bind_eq_ok_iff.1 hcheck
  obtain ⟨visit, hvisit, hd⟩ := List.mem_flatMap.1 hd
  exact isIn_refSiblings (h.container hvisit) hd

theorem isAnchored_requiredPropertyDefined : Rule.RequiredPropertyDefined.function.IsAnchored := by
  rintro target _ site _ ⟨⟩ h d hd
  obtain ⟨outer, houter, hd⟩ := List.mem_flatMap.1 hd
  obtain ⟨branch, hbranch, hd⟩ := List.mem_flatMap.1 hd
  exact isIn_requiredPropertyDefined ((h.nestedVisit houter).composedVisit hbranch) hd

theorem isAnchored_stringBoundary : Rule.StringBoundary.function.IsAnchored := by
  rintro target _ site _ ⟨⟩ h d hd
  obtain ⟨visit, hvisit, hd⟩ := List.mem_filterMap.1 hd
  rw [Option.ite_none_right_eq_some, Option.some.injEq] at hd
  obtain ⟨-, rfl⟩ := hd
  exact ⟨visit.node, h.singleKindVisit hvisit⟩

theorem isAnchored_superfluousAllOf : Rule.SuperfluousAllOf.function.IsAnchored := by
  rintro target _ site _ ⟨⟩ h d hd
  obtain ⟨visit, hvisit, hd⟩ := List.mem_filterMap.1 hd
  rw [Option.ite_none_right_eq_some, Option.some.injEq] at hd
  obtain ⟨hwrapper, rfl⟩ := hd
  exact isIn_superfluousAllOf (h.composedVisit hvisit) hwrapper

theorem isAnchored_of_mem_builtinFunctions {function : RuleFunction}
    (h : function ∈ builtinFunctions) : function.IsAnchored := by
  simp only [builtinFunctions, List.mem_cons, List.not_mem_nil, or_false] at h
  obtain rfl | rfl | rfl | rfl | rfl | rfl | rfl | rfl | rfl | rfl := h
  · exact isAnchored_arrayOfArrays
  · exact isAnchored_disallowedHeader
  · exact isAnchored_minMaxConsistency
  · exact isAnchored_propertyDescription
  · exact isAnchored_propertyConsistentType
  · exact isAnchored_refPattern
  · exact isAnchored_refSiblings
  · exact isAnchored_requiredPropertyDefined
  · exact isAnchored_stringBoundary
  · exact isAnchored_superfluousAllOf

end ApiLint
