import ApiLint.Proofs.Document.Removal
import ApiLint.Proofs.Rule.Distinct
import ApiLint.Proofs.Rule.Options

/-!
# Which keys beside references are reported

What is reported are the keys of the objects that are references, in the order in which the document
is written.  A key that is left when the reported ones are taken out stands where it stood, and its
object is a reference only if it was one, so nothing is left to report: not even where a reported
member held references of its own.
-/

namespace ApiLint.Rule.RefSiblings

variable {allowed : List String} {document node options : Json} {owner : List Segment}
  {key : String}

/-- A key of an object that is a reference, neither `$ref` itself nor allowed.  The object stands at
the end of steps. -/
def IsIgnored (allowed : List String) (document : Json) (owner : List Segment) (key : String) :
    Prop :=
  ∃ members text, document.inside? owner = some (.obj members) ∧
    members.lookup referenceKey = some (.str text) ∧ key ∈ members.map Prod.fst ∧
    key ≠ referenceKey ∧ key ∉ allowed

/-- Keys come in the order of their objects in the document, and those of one object in their order
there. -/
inductive ComesBefore (document : Json) : List Segment × String → List Segment × String → Prop
  | object {owner later : List Segment} (h : Document.Precedes document owner later)
      (key other : String) : ComesBefore document (owner, key) (later, other)
  | key {owner : List Segment} {members : List (String × Json)} {key other : String}
      (hmembers : document.inside? owner = some (.obj members))
      (h : [key, other].Sublist (members.map Prod.fst)) :
      ComesBefore document (owner, key) (owner, other)

/-! ## Diagnostics -/

/-- Where a key stands, given by its object and its name. -/
def place (found : List Segment × String) : List Segment := found.1 ++ [.key found.2]

def report (start : Path) (found : List Segment × String) : Diagnostic :=
  ⟨s!"'{found.2}' is ignored beside $ref", start.join (place found)⟩

/-- The keys of one node that are reported. -/
def ignoredKeys (allowed : List String) (node : Json) : List String :=
  if (node.strAt? referenceKey).isSome then
    ((node.members?.getD []).map Prod.fst).filter fun key => key ≠ referenceKey ∧ key ∉ allowed
  else []

theorem mem_ignoredKeys_iff :
    key ∈ ignoredKeys allowed node ↔
      ∃ members text, node = .obj members ∧ members.lookup referenceKey = some (.str text) ∧
        key ∈ members.map Prod.fst ∧ key ≠ referenceKey ∧ key ∉ allowed := by
  rw [ignoredKeys, List.mem_ite_nil_right, List.mem_filter, decide_eq_true_eq]
  constructor
  · rintro ⟨hreference, hkey, hkept⟩
    obtain ⟨text, htext⟩ := Option.isSome_iff_exists.1 hreference
    obtain ⟨value, hvalue, htext⟩ := Option.bind_eq_some_iff.1 htext
    cases node with
    | obj members =>
      cases value with
      | str _ => exact ⟨members, _, rfl, hvalue, hkey, hkept⟩
      | _ => cases htext
    | _ => cases hvalue
  · rintro ⟨members, text, rfl, hlookup, hkey, hkept⟩
    have htext : (Json.obj members).strAt? referenceKey = some text :=
      Option.bind_eq_some_iff.2 ⟨.str text, hlookup, rfl⟩
    exact ⟨Option.isSome_of_eq_some htext, hkey, hkept⟩

theorem ofNode_eq (start : Path) (steps : List Segment) :
    ofNode allowed node (start.join steps) =
      (ignoredKeys allowed node).map fun key => report start (steps, key) := by
  have place_eq (name : String) :
      (start.join steps).member name = start.join (place (steps, name)) :=
    start.join_join steps _
  rw [ofNode, ignoredKeys]
  split
  · rw [List.filter_map, List.map_map, ← List.filterMap_eq_map, List.filterMap_filter]
    refine List.filterMap_congr fun member _ => ?_
    simp [report, place_eq]
  · rfl

/-- The keys that are reported, each with the steps to its object. -/
def reportedKeys (allowed : List String) (document : Json) : List (List Segment × String) :=
  (Document.containers document).flatMap fun visit =>
    (ignoredKeys allowed visit.node).map fun key => (visit.steps, key)

theorem diagnostics_eq (start : Path) :
    diagnostics allowed document start = (reportedKeys allowed document).map (report start) := by
  rw [diagnostics, reportedKeys, List.map_flatMap]
  refine List.flatMap_congr fun visit _ => ?_
  rw [ofNode_eq, List.map_map]
  rfl

theorem check_eq_ok (valid : hasWrongList options option = false) (document : Json) (site : Site) :
    function.check document options site =
      .ok ((reportedKeys ((options.itemsAt option).filterMap Json.str?) document).map
        (report site.path)) := by
  refine bind_eq_ok_iff.2 ⟨_, optionalTexts_eq_ok valid site, ?_⟩
  rw [diagnostics_eq]
  rfl

/-! ## What is reported -/

theorem mem_reportedKeys_iff (distinct : document.hasDistinctKeys) :
    (owner, key) ∈ reportedKeys allowed document ↔ IsIgnored allowed document owner key := by
  rw [reportedKeys, List.mem_flatMap]
  constructor
  · rintro ⟨visit, hvisit, h⟩
    obtain ⟨_, hkey, ⟨⟩⟩ := List.mem_map.1 h
    obtain ⟨members, text, hnode, hignored⟩ := mem_ignoredKeys_iff.1 hkey
    have hinside := ((Document.mem_containers_iff distinct).1 hvisit).1
    exact ⟨members, text, hnode ▸ hinside, hignored⟩
  · rintro ⟨members, text, hinside, hlookup, hkept⟩
    have hfilled : Document.IsFilled (.obj members) := Document.isFilled_of_get? hlookup
    refine ⟨⟨owner, .obj members⟩, (Document.mem_containers_iff distinct).2 ⟨hinside, hfilled⟩, ?_⟩
    exact List.mem_map_of_mem (mem_ignoredKeys_iff.2 ⟨members, text, rfl, hlookup, hkept⟩)

theorem pairwise_reportedKeys (distinct : document.hasDistinctKeys) :
    (reportedKeys allowed document).Pairwise (ComesBefore document) := by
  rw [reportedKeys, List.pairwise_flatMap]
  constructor
  · intro visit hvisit
    rw [List.pairwise_map]
    refine List.pairwise_iff_forall_sublist.2 fun {key other} horder => ?_
    have hkey := horder.subset (List.mem_cons_self)
    obtain ⟨members, -, hnode, -⟩ := mem_ignoredKeys_iff.1 hkey
    have hinside := ((Document.mem_containers_iff distinct).1 hvisit).1
    rw [hnode] at hinside horder
    refine .key hinside (horder.trans ?_)
    rw [ignoredKeys]
    split
    · exact List.filter_sublist
    · exact List.nil_sublist _
  · refine ((Document.pairwise_precedes_visits distinct).filter _).imp fun {earlier later} h => ?_
    intro first hfirst second hsecond
    obtain ⟨key, -, rfl⟩ := List.mem_map.1 hfirst
    obtain ⟨other, -, rfl⟩ := List.mem_map.1 hsecond
    exact .object h key other

/-! ## What is left -/

theorem isIgnored_of_without {gone : List Segment → Bool}
    (h : IsIgnored allowed (document.without gone) owner key) :
    IsIgnored allowed document owner key ∧ gone (place (owner, key)) = false := by
  obtain ⟨members, text, hinside, hlookup, hkey, hkept⟩ := h
  obtain ⟨node, hnode, hleft⟩ := Json.exists_inside?_of_without hinside
  obtain ⟨originals, rfl, rfl⟩ := Json.exists_members_of_without hleft
  rw [Json.lookup_membersWithout] at hlookup
  obtain ⟨value, hvalue, htext⟩ :=
    Option.map_eq_some_iff.1 (Option.ite_none_left_eq_some.1 hlookup).2
  rw [Json.keys_membersWithout, List.mem_filter, Bool.not_eq_true'] at hkey
  exact ⟨⟨originals, text, hnode, Json.eq_str_of_without htext ▸ hvalue, hkey.1, hkept⟩, hkey.2⟩

/-- Without the members that are found, a document has the places that are in none of them. -/
theorem isSome_inside?_without_places {found : List (List Segment × String)}
    {steps : List Segment} :
    ((document.without (· ∈ found.map place)).inside? steps).isSome ↔
      (document.inside? steps).isSome ∧ ∀ entry ∈ found, ¬place entry <+: steps := by
  rw [Json.isSome_inside?_without]
  refine and_congr_right fun _ => ⟨fun h entry hentry hway => ?_, fun h way name hway => ?_⟩
  · exact of_decide_eq_false (h entry.1 entry.2 hway) (List.mem_map_of_mem hentry)
  · refine decide_eq_false fun hgone => ?_
    obtain ⟨entry, hentry, hplace⟩ := List.mem_map.1 hgone
    exact h entry hentry (hplace ▸ hway)

theorem reportedKeys_without (distinct : document.hasDistinctKeys) :
    reportedKeys allowed (document.without (· ∈ (reportedKeys allowed document).map place)) =
      [] := by
  refine List.eq_nil_iff_forall_not_mem.2 fun ⟨owner, key⟩ h => ?_
  have hleft := (mem_reportedKeys_iff (Json.hasDistinctKeys_without distinct)).1 h
  obtain ⟨hignored, hplace⟩ := isIgnored_of_without hleft
  exact of_decide_eq_false hplace (List.mem_map_of_mem ((mem_reportedKeys_iff distinct).2 hignored))

/-- The keys beside references are reported, each once, in the order in which the document is
written, and nothing else is.  When they, and nothing else, are taken out of the document, nothing
is reported any more. -/
theorem reports_exactly_ignored_keys (distinct : document.hasDistinctKeys)
    (valid : hasWrongList options option = false) (site : Site) :
    ∃ found : List (List Segment × String),
      function.check document options site = .ok (found.map (report site.path)) ∧
        (found.map place).Nodup ∧
        (∀ owner key, (owner, key) ∈ found ↔
          IsIgnored ((options.itemsAt option).filterMap Json.str?) document owner key) ∧
        found.Pairwise (ComesBefore document) ∧
        let rest := document.without (· ∈ found.map place)
        (∀ steps, (rest.inside? steps).isSome ↔
          (document.inside? steps).isSome ∧ ∀ entry ∈ found, ¬place entry <+: steps) ∧
        ∀ later : Site, function.check rest options later = .ok [] := by
  have hcheck := check_eq_ok valid document site
  refine ⟨_, hcheck, ?_, fun _ _ => mem_reportedKeys_iff distinct, pairwise_reportedKeys distinct,
    fun _ => isSome_inside?_without_places, fun later => ?_⟩
  · have paths := (reportsApart_refSiblings hcheck distinct).nodup_paths
    rw [List.map_map] at paths
    refine List.Nodup.of_map site.path.join ?_
    rwa [List.map_map]
  · rw [check_eq_ok valid, reportedKeys_without distinct, List.map_nil]

/-- A key is reported inside a member that is itself reported, and below a member named `$ref` that
is an object; taking the outer one out takes the inner one along. -/
theorem reported_keys_inside_reported_member :
    let inner : Json := .obj [("y", .null), ("$ref", .str "#/b")]
    let outer : Json := .obj [("description", .str ""), ("x", .arr [inner]), ("$ref", .str "#/a")]
    let document : Json := .obj [("properties", .obj [("$ref", outer), ("z", .null)])]
    let options : Json := .obj [("allowedSiblings", .arr [.str "description"])]
    let owner : List Segment := [.key "properties", .key "$ref"]
    document.hasDistinctKeys ∧ hasWrongList options option = false ∧
      ∃ found : List (List Segment × String),
        function.check document options (.of "siblings" document .root) =
            .ok (found.map (report .root)) ∧
        (owner, "x") ∈ found ∧ (owner ++ [.key "x", .index 0], "y") ∈ found ∧
        (owner, "description") ∉ found ∧ ([.key "properties"], "z") ∉ found ∧
        ∀ later : Site,
          function.check (document.without (· ∈ found.map place)) options later = .ok [] := by
  intro inner outer document options owner
  have distinct : document.hasDistinctKeys := by decide
  have valid : hasWrongList options option = false := by decide
  obtain ⟨found, hcheck, -, hfound, -, -, hrest⟩ :=
    reports_exactly_ignored_keys distinct valid (.of "siblings" document .root)
  refine ⟨distinct, valid, found, hcheck, (hfound _ _).2 ?_, (hfound _ _).2 ?_, fun h => ?_,
    fun h => ?_, hrest⟩
  · exact ⟨_, "#/a", rfl, rfl, by simp, by decide, by decide⟩
  · exact ⟨_, "#/b", rfl, rfl, by simp, by decide, by decide⟩
  · obtain ⟨_, _, -, -, -, -, hallowed⟩ := (hfound _ _).1 h
    exact hallowed (by decide)
  · obtain ⟨_, text, ⟨⟩, hlookup, -⟩ := (hfound _ _).1 h
    exact Json.noConfusion (Option.some.inj hlookup)

end ApiLint.Rule.RefSiblings
