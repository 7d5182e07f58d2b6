import ApiLint.Proofs.Document.Targets
import ApiLint.Proofs.Document.Walk

/-!
# Kinds of places

A kind of place says, step by step, how one gets from a node to the places of that kind: by a
certain key, by any key, by a method, by any index.  At most one node is at each place, and no place
of a kind stands inside another one.  Places of two kinds are apart when some slot keeps them apart,
which is settled by looking at the kinds alone.
-/

namespace ApiLint

namespace Path

/-- One of the paths leads on from the end of the other. -/
def IsComparable (a b : Path) : Prop :=
  a.segments <+: b.segments ∨ b.segments <+: a.segments

theorem IsComparable.symm {a b : Path} (h : a.IsComparable b) : b.IsComparable a := Or.symm h

theorem isComparable_join_iff {path : Path} {first second : List Segment} :
    (path.join first).IsComparable (path.join second) ↔ first <+: second ∨ second <+: first := by
  simp [IsComparable, List.prefix_append_right_inj]

/-- A path that leads on from the ends of two paths goes along both. -/
theorem isComparable_of_join_eq {a b : Path} {first second : List Segment}
    (h : a.join first = b.join second) : a.IsComparable b := by
  have hsegments : a.segments ++ first = b.segments ++ second := congrArg Path.segments h
  have hb : b.segments <+: a.segments ++ first := hsegments ▸ List.prefix_append _ _
  exact List.prefix_or_prefix_of_prefix (List.prefix_append _ _) hb

end Path

namespace Document

/-! ## Slots -/

/-- What a kind of place says about one step. -/
inductive Slot where
  /-- To the member of this name. -/
  | key (name : String)
  /-- To the member of this name, an object. -/
  | object (name : String)
  /-- To a member of any name, an object. -/
  | anyKey
  /-- To a member that is named for a method, an object. -/
  | method
  /-- To an element, an object. -/
  | anyIndex
deriving DecidableEq

namespace Slot

def allows : Slot → Segment → Bool
  | .key name, .key member => member == name
  | .object name, .key member => member == name
  | .anyKey, .key _ => true
  | .method, .key member => decide (member ∈ methods)
  | .anyIndex, .index _ => true
  | _, _ => false

def wantsObject : Slot → Bool
  | .key _ => false
  | _ => true

/-- Whether a slot lets one go by a step to a node. -/
def admits (slot : Slot) (step : Segment) (inner : Json) : Bool :=
  slot.allows step && (!slot.wantsObject || inner.isObj)

/-- The nodes that a slot leads to from a target. -/
def below (slot : Slot) (target : Target) : List Target :=
  (contents target.node).filterMap fun (step, inner) =>
    if slot.admits step inner then some ⟨inner, target.path.child step⟩ else none

/-- Whether some step is allowed by both slots. -/
def meets : Slot → Slot → Bool
  | .anyIndex, .anyIndex => true
  | .anyIndex, _ => false
  | _, .anyIndex => false
  | .anyKey, _ => true
  | _, .anyKey => true
  | .method, .method => true
  | .method, .key name => decide (name ∈ methods)
  | .method, .object name => decide (name ∈ methods)
  | .key name, .method => decide (name ∈ methods)
  | .object name, .method => decide (name ∈ methods)
  | .key first, .key second => first == second
  | .key first, .object second => first == second
  | .object first, .key second => first == second
  | .object first, .object second => first == second

theorem meets_of_allows {first second : Slot} {step : Segment} (hfirst : first.allows step)
    (hsecond : second.allows step) : first.meets second := by
  cases step <;> cases first <;> cases second <;> simp_all [allows, meets]

variable {name : String} {step : Segment} {inner : Json}

theorem admits_key_iff : (Slot.key name).admits step inner ↔ step = .key name := by
  cases step <;> simp [admits, allows, wantsObject]

theorem admits_object_iff :
    (Slot.object name).admits step inner ↔ step = .key name ∧ inner.isObj := by
  cases step <;> simp [admits, allows, wantsObject]

end Slot

/-! ## Places -/

/-- A kind of place, as slots from the outside in. -/
abbrev Place := List Slot

namespace Place

/-- The node at the end of steps, when the steps go by the slots of the place. -/
def at? : Place → Json → List Segment → Option Json
  | [], node, [] => some node
  | slot :: rest, node, step :: steps =>
    ((node.child? step).filter (slot.admits step)).bind (at? rest · steps)
  | _, _, _ => none

/-- All nodes at such places, seen from a target. -/
def below : Place → Target → List Target
  | [], target => [target]
  | slot :: rest, target => (slot.below target).flatMap (below rest)

/-- Whether some path to one place can begin like some path to the other, as far as they go. -/
def meets : Place → Place → Bool
  | first :: rest, second :: more => first.meets second && meets rest more
  | _, _ => true

/-! ## Nodes at places -/

section

variable {target found : Target} {node other last final : Json} {slot : Slot} {rest place : Place}
  {steps further : List Segment}

theorem at?_nil_eq_some_iff : at? [] node steps = some last ↔ steps = [] ∧ node = last := by
  cases steps <;> simp [at?]

theorem at?_cons_eq_some_iff :
    at? (slot :: rest) node steps = some last ↔
      ∃ step more inner, steps = step :: more ∧ node.child? step = some inner ∧
        slot.admits step inner ∧ at? rest inner more = some last := by
  cases steps with
  | nil => simp [at?]
  | cons step more =>
    simp only [at?, Option.bind_eq_some_iff, Option.filter_eq_some_iff, and_assoc]
    constructor
    · rintro ⟨inner, hinner, hadmits, hlast⟩
      exact ⟨step, more, inner, rfl, hinner, hadmits, hlast⟩
    · rintro ⟨_, _, inner, ⟨⟩, hinner, hadmits, hlast⟩
      exact ⟨inner, hinner, hadmits, hlast⟩

/-- What a place leads to is an object when its last slot wants one. -/
theorem isObj_of_at? (hwants : place.getLast?.any Slot.wantsObject)
    (h : at? place node steps = some last) : last.isObj := by
  induction place generalizing node steps with
  | nil => cases hwants
  | cons slot rest ih =>
    obtain ⟨step, more, inner, -, -, hadmits, hlast⟩ := at?_cons_eq_some_iff.1 h
    cases rest with
    | nil =>
      obtain ⟨-, rfl⟩ := at?_nil_eq_some_iff.1 hlast
      have hwants : slot.wantsObject := hwants
      simpa [Slot.admits, hwants] using And.right (Bool.and_eq_true_iff.1 hadmits)
    | cons next rest =>
      rw [List.getLast?_cons_cons] at hwants
      exact ih hwants hlast

theorem mem_slot_below_iff (distinct : target.node.hasDistinctKeys) :
    found ∈ slot.below target ↔ ∃ step, found.path = target.path.child step ∧
      target.node.child? step = some found.node ∧ slot.admits step found.node := by
  simp only [Slot.below, List.mem_filterMap, Option.ite_none_right_eq_some, Option.some.injEq,
    Prod.exists, mem_contents_iff distinct]
  constructor
  · rintro ⟨step, inner, hinner, hadmits, rfl⟩
    exact ⟨step, rfl, hinner, hadmits⟩
  · rintro ⟨step, hpath, hinner, hadmits⟩
    exact ⟨step, _, hinner, hadmits, by rw [← hpath]⟩

theorem below_singleton (slot : Slot) (target : Target) : below [slot] target = slot.below target :=
  List.flatMap_singleton' _

theorem below_append (first second : Place) (target : Target) :
    below (first ++ second) target = (below first target).flatMap (below second) := by
  induction first generalizing target with
  | nil => simp [below]
  | cons slot rest ih =>
    rw [List.cons_append, below, below, List.flatMap_assoc]
    exact List.flatMap_congr fun inner _ => ih inner

theorem isIn_root {document : Json} (distinct : document.hasDistinctKeys) :
    Target.IsIn ⟨document, .root⟩ document :=
  Located.root distinct

theorem isIn_of_mem_slot_below {document : Json} (h : target.IsIn document)
    (hfound : found ∈ slot.below target) : found.IsIn document := by
  obtain ⟨step, hpath, hchild, -⟩ := (mem_slot_below_iff h.hasDistinctKeys).1 hfound
  have hedge := (mem_contents_iff h.hasDistinctKeys).2 hchild
  unfold Target.IsIn
  rw [hpath]
  exact h.join (isPlacedBy_containment target.node h.hasDistinctKeys _ hedge)

/-- The nodes found at a place are those to which the steps of their path lead by its slots. -/
theorem mem_below_iff {document : Json} (h : target.IsIn document) :
    found ∈ below place target ↔
      ∃ steps, found.path = target.path.join steps ∧
        at? place target.node steps = some found.node := by
  induction place generalizing target with
  | nil =>
    simp only [below, List.mem_singleton, at?_nil_eq_some_iff]
    constructor
    · rintro rfl
      exact ⟨[], by simp, rfl, rfl⟩
    · rintro ⟨_, hpath, rfl, hnode⟩
      cases found
      cases target
      simp_all
  | cons slot rest ih =>
    simp only [below, List.mem_flatMap, at?_cons_eq_some_iff]
    constructor
    · rintro ⟨inner, hinner, hfound⟩
      obtain ⟨steps, hpath, hat⟩ := (ih (isIn_of_mem_slot_below h hinner)).1 hfound
      obtain ⟨step, hinnerPath, hstep⟩ := (mem_slot_below_iff h.hasDistinctKeys).1 hinner
      rw [hinnerPath, Path.child, Path.join_join] at hpath
      exact ⟨step :: steps, hpath, step, steps, inner.node, rfl, hstep.1, hstep.2, hat⟩
    · rintro ⟨_, hpath, step, steps, inner, rfl, hchild, hadmits, hat⟩
      have hinner : ⟨inner, target.path.child step⟩ ∈ slot.below target :=
        (mem_slot_below_iff h.hasDistinctKeys).2 ⟨step, rfl, hchild, hadmits⟩
      refine ⟨_, hinner, (ih (isIn_of_mem_slot_below h hinner)).2 ⟨steps, ?_, hat⟩⟩
      rw [hpath, Path.child, Path.join_join, List.singleton_append]

/-! ## Apart from each other -/

theorem meets_of_isComparable {first second : Place} (hfirst : at? first node steps = some last)
    (hsecond : at? second other further = some final)
    (h : steps <+: further ∨ further <+: steps) : meets first second := by
  induction first generalizing second node other steps further with
  | nil => rfl
  | cons slot rest ih =>
    cases second with
    | nil => rfl
    | cons slot' rest' =>
      obtain ⟨step, steps, inner, rfl, -, hallows, hlast⟩ := at?_cons_eq_some_iff.1 hfirst
      obtain ⟨step', further, inner', rfl, -, hallows', hfinal⟩ := at?_cons_eq_some_iff.1 hsecond
      have hsteps : step = step' ∧ (steps <+: further ∨ further <+: steps) := by
        simp only [List.cons_prefix_cons] at h
        tauto
      obtain ⟨rfl, hprefix⟩ := hsteps
      rw [Slot.admits, Bool.and_eq_true] at hallows hallows'
      rw [meets, Slot.meets_of_allows hallows.1 hallows'.1, ih hlast hfinal hprefix, Bool.and_self]

theorem pairwise_slot_below (slot : Slot) (distinct : target.node.hasDistinctKeys) :
    (slot.below target).Pairwise fun a b =>
      ∃ s t, s ≠ t ∧ a.path = target.path.child s ∧ b.path = target.path.child t := by
  have different := List.pairwise_map.1 (nodup_contents distinct)
  refine List.pairwise_filterMap.2 (different.imp fun {a b} hne => ?_)
  intro first hfirst second hsecond
  rw [Option.ite_none_right_eq_some, Option.some.injEq] at hfirst hsecond
  obtain ⟨-, rfl⟩ := hfirst
  obtain ⟨-, rfl⟩ := hsecond
  exact ⟨a.1, b.1, hne, rfl, rfl⟩

/-- No node at a place of one kind stands inside another one. -/
theorem pairwise_below {document : Json} (h : target.IsIn document) :
    (below place target).Pairwise fun a b => ¬a.path.IsComparable b.path := by
  induction place generalizing target with
  | nil => exact List.pairwise_singleton _ _
  | cons slot rest ih =>
    rw [below, List.pairwise_flatMap]
    refine ⟨fun inner hinner => ih (isIn_of_mem_slot_below h hinner), ?_⟩
    refine (pairwise_slot_below slot h.hasDistinctKeys).imp_of_mem ?_
    rintro a b ha hb ⟨s, t, hne, hs, ht⟩ first hfirst second hsecond hcomparable
    obtain ⟨xs, hxs, -⟩ := (mem_below_iff (isIn_of_mem_slot_below h ha)).1 hfirst
    obtain ⟨ys, hys, -⟩ := (mem_below_iff (isIn_of_mem_slot_below h hb)).1 hsecond
    rw [hxs, hys, hs, ht, Path.child, Path.child, Path.join_join, Path.join_join,
      Path.isComparable_join_iff] at hcomparable
    obtain hprefix | hprefix := hcomparable
    · exact hne (List.cons_prefix_cons.1 hprefix).1
    · exact hne (List.cons_prefix_cons.1 hprefix).1.symm

/-- Nodes at places of kinds that are apart do not stand inside each other. -/
theorem pairwise_flatMap_below {document : Json} {places : List Place} (h : target.IsIn document)
    (apart : places.Pairwise fun first second => meets first second = false) :
    (places.flatMap (below · target)).Pairwise fun a b => ¬a.path.IsComparable b.path := by
  refine List.pairwise_flatMap.2 ⟨fun _ _ => pairwise_below h, apart.imp ?_⟩
  intro first second hapart a ha b hb hcomparable
  obtain ⟨xs, hxs, hfirst⟩ := (mem_below_iff h).1 ha
  obtain ⟨ys, hys, hsecond⟩ := (mem_below_iff h).1 hb
  rw [hxs, hys, Path.isComparable_join_iff] at hcomparable
  rw [meets_of_isComparable hfirst hsecond hcomparable] at hapart
  cases hapart

end

end Place

end Document

end ApiLint
