import ApiLint.Proofs.Binary64
import ApiLint.Proofs.Document.Containers
import ApiLint.Proofs.Rule.Distinct
import ApiLint.Proofs.Rule.OnePlace

/-!
# Whole bounds

A lower bound is reported, once, when the double nearest to it is greater than the one nearest to
its upper bound.  As rounding keeps the order, whole bounds in the right order are never reported.
Whole bounds in the wrong order are, unless they have the same nearest double.
-/

namespace ApiLint.Rule.MinMaxConsistency

variable {document node : Json} {path : Path} {lower upper : String} {least greatest : Binary64}

/-- The diagnostic about a lower bound that is greater than its upper bound. -/
def report (lower upper : String) (least greatest : Binary64) (path : Path) : Diagnostic :=
  ⟨s!"{lower} ({layout.render least}) must not be greater than " ++
    s!"{upper} ({layout.render greatest})", path.member lower⟩

/-! ## The pairs of bounds -/

theorem nodup_lower_bounds : (bounds.map Prod.fst).Nodup := by decide

theorem ofPair_eq (hleast : bound? node lower = some least)
    (hgreatest : bound? node upper = some greatest) :
    ofPair node path lower upper =
      if greatest.rank < least.rank then [report lower upper least greatest path] else [] := by
  rw [ofPair, hleast, hgreatest]
  rfl

theorem parent?_of_mem_ofNode {d : Diagnostic} (hd : d ∈ ofNode node path) :
    d.path.parent? = some path := by
  obtain ⟨pair, -, hd⟩ := List.mem_flatMap.1 hd
  rw [areAt_minMaxPair.path_of_mem_here hd]
  exact Path.parent?_child path _

/-- Each pair of bounds has its own diagnostics, at its lower bound. -/
theorem filter_path_ofNode (hpair : (lower, upper) ∈ bounds) :
    (ofNode node path).filter (·.path = path.member lower) = ofPair node path lower upper := by
  rw [ofNode, filter_flatMap_of_mem nodup_lower_bounds hpair]
  · exact List.filter_eq_self.2 fun d hd => decide_eq_true (areAt_minMaxPair.path_of_mem_here hd)
  · intro other _ hne
    refine List.filter_eq_nil_iff.2 fun d hd hpath => hne ?_
    have hsame := (areAt_minMaxPair.path_of_mem_here hd).symm.trans (of_decide_eq_true hpath)
    simpa [Path.member, Segment.key?] using congrArg Path.lastKey? hsame

/-- What is reported about a pair of bounds is what the check of that pair gives. -/
theorem filter_path_diagnostics {steps : List Segment} {value : Json}
    (distinct : document.hasDistinctKeys) (hnode : document.inside? steps = some node)
    (hlower : node.get? lower = some value) (hpair : (lower, upper) ∈ bounds) :
    (diagnostics document path).filter (·.path = (path.join steps).member lower) =
      ofPair node (path.join steps) lower upper := by
  have hvisit : ⟨steps, node⟩ ∈ Document.containers document :=
    (Document.mem_containers_iff distinct).2 ⟨hnode, Document.isFilled_of_get? hlower⟩
  have own (node : Json) (path : Path) (d : Diagnostic) (hd : d ∈ ofNode node path) :
      d.path.parent? = some path := parent?_of_mem_ofNode hd
  exact (filter_path_containers distinct hvisit own path (.key lower)).trans
    (filter_path_ofNode hpair)

/-! ## Whole bounds -/

/-- A whole number of 64 bits, with a sign if it is negative. -/
def IsWord (n : Int) : Prop := -2 ^ 63 ≤ n ∧ n < 2 ^ 64

instance : DecidablePred IsWord := fun _ => inferInstanceAs (Decidable (_ ∧ _))

theorem IsWord.natAbs_lt {n : Int} (h : IsWord n) : n.natAbs < 2 ^ 64 := by
  obtain ⟨hge, hlt⟩ := h
  omega

theorem bound?_of_int {key : String} {n : Int} (h : node.get? key = some (.num (.int n))) :
    bound? node key = Binary64.ofInt n := by
  rw [bound?, h]
  rfl

/-- A whole lower bound that is not greater than its whole upper bound is never reported.  One that
is greater is reported once, unless both have the same nearest double. -/
theorem whole_bounds_are_compared (distinct : document.hasDistinctKeys) (options : Json)
    (site : Site) :
    ∃ found, function.check document options site = .ok found ∧
      ∀ steps node, document.inside? steps = some node → ∀ lower upper, (lower, upper) ∈ bounds →
        ∀ a b, IsWord a → IsWord b → node.get? lower = some (.num (.int a)) →
          node.get? upper = some (.num (.int b)) →
        let place := site.path.join steps
        ∃ least greatest, Binary64.ofInt a = some least ∧ Binary64.ofInt b = some greatest ∧
          (found.filter (·.path = place.member lower) =
            if b < a ∧ greatest.same least = false then [report lower upper least greatest place]
            else []) ∧
          (b < a → greatest.same least → Binary64.Crowded b a) := by
  refine ⟨diagnostics document site.path, rfl, ?_⟩
  intro steps node hnode lower upper hpair a b ha hb hlower hupper place
  obtain ⟨least, hleast, -⟩ := Binary64.ofInt_eq_some ha.natAbs_lt
  obtain ⟨greatest, hgreatest, -⟩ := Binary64.ofInt_eq_some hb.natAbs_lt
  obtain ⟨horder, hcrowded⟩ :=
    Binary64.order_of_ofInt hb.natAbs_lt ha.natAbs_lt hgreatest hleast
  refine ⟨least, greatest, hleast, hgreatest, ?_, hcrowded⟩
  rw [filter_path_diagnostics distinct hnode hlower hpair,
    ofPair_eq ((bound?_of_int hlower).trans hleast) ((bound?_of_int hupper).trans hgreatest)]
  exact if_congr horder rfl rfl

/-- Two bounds in the wrong order that have the same nearest double are not reported. -/
theorem silent_about_crowded_bounds :
    let document : Json := .obj [("minimum", .num (.int 9007199254740993)),
      ("maximum", .num (.int 9007199254740992))]
    function.check document .null (.of "bounds" document .root) = .ok [] ∧
      IsWord 9007199254740993 ∧ IsWord 9007199254740992 := by
  intro document
  exact ⟨by decide +kernel, by decide, by decide⟩

/-- A lower bound inside a list is reported. -/
theorem reported_bound_in_list :
    let document : Json := .arr [.obj [("maxItems", .num (.int 5)), ("minItems", .num (.int 10))]]
    document.hasDistinctKeys ∧
      ∃ found, function.check document .null (.of "bounds" document .root) = .ok found ∧
        found.filter (·.path = ⟨[.index 0, .key "minItems"]⟩) =
          [⟨"minItems (10) must not be greater than maxItems (5)",
            ⟨[.index 0, .key "minItems"]⟩⟩] := by
  intro document
  have distinct : document.hasDistinctKeys := by decide
  obtain ⟨found, hfound, compared⟩ :=
    whole_bounds_are_compared distinct .null (.of "bounds" document .root)
  obtain ⟨least, greatest, hleast, hgreatest, here, -⟩ := compared [.index 0] _ rfl "minItems"
    "maxItems" (by decide) 10 5 (by decide) (by decide) rfl rfl
  have ten : Binary64.ofInt 10 = some ⟨false, 0x4024000000000000, by decide⟩ := by decide +kernel
  have five : Binary64.ofInt 5 = some ⟨false, 0x4014000000000000, by decide⟩ := by decide +kernel
  obtain rfl := Option.some.inj (ten.symm.trans hleast)
  obtain rfl := Option.some.inj (five.symm.trans hgreatest)
  exact ⟨distinct, found, hfound, here.trans (by decide +kernel)⟩

end ApiLint.Rule.MinMaxConsistency
