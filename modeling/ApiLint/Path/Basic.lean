/-!
# Paths into a document

A path is the list of steps from the root of a document to a node. A step is the key of an object
member or the index of an array element; the two stay apart even where they are written alike.
-/

namespace ApiLint

inductive Segment where
  | index (value : Nat)
  | key (name : String)
deriving DecidableEq, Inhabited

namespace Segment

def key? : Segment → Option String
  | .key name => some name
  | .index _ => none

def isIndex : Segment → Bool
  | .index _ => true
  | .key _ => false

/-- The key itself, or the index in decimal. -/
def text : Segment → String
  | .index value => toString value
  | .key name => name

/-- Indices come before keys, indices by number and keys by code points. -/
def compare : Segment → Segment → Ordering
  | .index a, .index b => Ord.compare a b
  | .index _, .key _ => .lt
  | .key _, .index _ => .gt
  | .key a, .key b => Ord.compare a b

end Segment

structure Path where
  segments : List Segment
deriving DecidableEq, Inhabited

namespace Path

def root : Path := ⟨[]⟩

def ofKeys (keys : List String) : Path := ⟨keys.map .key⟩

/-- The path extended by steps. -/
def join (path : Path) (steps : List Segment) : Path := ⟨path.segments ++ steps⟩

def child (path : Path) (step : Segment) : Path := path.join [step]

/-- The path extended by the key of a member. -/
def member (path : Path) (name : String) : Path := path.child (.key name)

/-- The path extended by the index of an element. -/
def element (path : Path) (index : Nat) : Path := path.child (.index index)

def parent? (path : Path) : Option Path :=
  if path.segments.isEmpty then none else some ⟨path.segments.dropLast⟩

def last? (path : Path) : Option Segment := path.segments.getLast?

def lastKey? (path : Path) : Option String := path.last?.bind Segment.key?

/-- The step before the last one, when it is a key. -/
def parentKey? (path : Path) : Option String := path.parent?.bind lastKey?

def length (path : Path) : Nat := path.segments.length

def isRoot (path : Path) : Bool := path.segments.isEmpty

def containsKey (path : Path) (name : String) : Bool := path.segments.any (·.key? == some name)

/-- The steps with dots between them. -/
def dotted (path : Path) : String := ".".intercalate (path.segments.map Segment.text)

/-! ## Order -/

def compareSegments : List Segment → List Segment → Ordering
  | [], [] => .eq
  | [], _ :: _ => .lt
  | _ :: _, [] => .gt
  | a :: as, b :: bs => (a.compare b).then (compareSegments as bs)

/-- Step by step; a path comes before its extensions. -/
def compare (a b : Path) : Ordering := compareSegments a.segments b.segments

def sort (paths : List Path) : List Path := paths.mergeSort fun a b => a.compare b != .gt

/-! ## Lemmas -/

@[simp]
theorem segments_join (path : Path) (steps : List Segment) :
    (path.join steps).segments = path.segments ++ steps := rfl

@[simp]
theorem segments_child (path : Path) (step : Segment) :
    (path.child step).segments = path.segments ++ [step] := rfl

@[simp]
theorem join_nil (path : Path) : path.join [] = path := by simp [join]

theorem join_join (path : Path) (first second : List Segment) :
    (path.join first).join second = path.join (first ++ second) := by simp [join]

@[simp]
theorem last?_child (path : Path) (step : Segment) : (path.child step).last? = some step := by
  simp [last?]

@[simp]
theorem lastKey?_child (path : Path) (step : Segment) :
    (path.child step).lastKey? = step.key? := by
  simp [lastKey?]

@[simp]
theorem parent?_child (path : Path) (step : Segment) : (path.child step).parent? = some path := by
  simp [parent?]

@[simp]
theorem parentKey?_child (path : Path) (step : Segment) :
    (path.child step).parentKey? = path.lastKey? := by
  simp [parentKey?]

end Path

end ApiLint
