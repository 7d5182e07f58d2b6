import ApiLint.Binary64

/-!
# JSON values

Numbers are whole numbers or doubles and the two kinds are never equal. Objects keep the order in
which their members were written. A member is smaller than the value that holds it, so functions
on values may recurse through a look-up.
-/

namespace ApiLint

inductive Number where
  | int (value : Int)
  | double (value : Binary64)
deriving DecidableEq, Inhabited

namespace Number

/-- Numbers are equal within one kind only, and the two zero doubles are equal. -/
def same : Number → Number → Bool
  | .int a, .int b => a == b
  | .double x, .double y => x.same y
  | _, _ => false

/-- The nearest double, or nothing when that is beyond the greatest one. -/
def toBinary64 : Number → Option Binary64
  | .int n => Binary64.ofInt n
  | .double x => some x

def isZero : Number → Bool
  | .int n => n == 0
  | .double x => x.isZero

end Number

inductive Json where
  | null
  | bool (value : Bool)
  | num (value : Number)
  | str (text : String)
  | arr (items : List Json)
  | obj (members : List (String × Json))
deriving Inhabited

namespace Json

def isNull : Json → Bool
  | .null => true
  | _ => false

def isObj : Json → Bool
  | .obj _ => true
  | _ => false

def isArr : Json → Bool
  | .arr _ => true
  | _ => false

def str? : Json → Option String
  | .str text => some text
  | _ => none

def num? : Json → Option Number
  | .num value => some value
  | _ => none

def items? : Json → Option (List Json)
  | .arr items => some items
  | _ => none

def members? : Json → Option (List (String × Json))
  | .obj members => some members
  | _ => none

/-- The member `key`, if the value is an object that has it. -/
def get? : Json → String → Option Json
  | .obj members, key => members.lookup key
  | _, _ => none

def has (value : Json) (key : String) : Bool := (value.get? key).isSome

/-- The member `key` when it is an object. -/
def object? (value : Json) (key : String) : Option Json := (value.get? key).filter isObj

/-- The elements of the member `key`, none when it is absent or no array. -/
def itemsAt (value : Json) (key : String) : List Json := ((value.get? key).bind items?).getD []

/-- The members of the member `key`, none when it is absent or no object. -/
def membersAt (value : Json) (key : String) : List (String × Json) :=
  ((value.get? key).bind members?).getD []

/-- The text of the member `key` when it is a string. -/
def strAt? (value : Json) (key : String) : Option String := (value.get? key).bind str?

/-- Sets a member: in place when the key is there, at the end when it is new. -/
def insert (members : List (String × Json)) (key : String) (value : Json) :
    List (String × Json) :=
  if members.any (·.1 == key) then members.map fun m => if m.1 == key then (key, value) else m
  else members ++ [(key, value)]

/-! ## Members are smaller -/

theorem sizeOf_lt_of_mem_members {members : List (String × Json)} {m : String × Json}
    (h : m ∈ members) : sizeOf m.2 < sizeOf (Json.obj members) := by
  have := List.sizeOf_lt_of_mem h
  cases m
  simp only [Prod.mk.sizeOf_spec, Json.obj.sizeOf_spec] at *
  omega

theorem sizeOf_lt_of_mem_items {items : List Json} {item : Json} (h : item ∈ items) :
    sizeOf item < sizeOf (Json.arr items) := by
  have := List.sizeOf_lt_of_mem h
  simp only [Json.arr.sizeOf_spec]
  omega

theorem sizeOf_lt_of_get? {value member : Json} {key : String}
    (h : value.get? key = some member) : sizeOf member < sizeOf value := by
  cases value <;> simp only [get?, reduceCtorEq] at h
  obtain ⟨before, after, rfl, -⟩ := List.lookup_eq_some_iff.1 h
  exact sizeOf_lt_of_mem_members (m := (key, member)) (by simp)

theorem sizeOf_lt_of_mem_itemsAt {value item : Json} {key : String}
    (h : item ∈ value.itemsAt key) : sizeOf item < sizeOf value := by
  unfold itemsAt at h
  cases hg : value.get? key with
  | none => simp [hg] at h
  | some member =>
    cases member <;> simp [hg, items?] at h
    exact Nat.lt_trans (sizeOf_lt_of_mem_items h) (sizeOf_lt_of_get? hg)

theorem sizeOf_lt_of_mem_membersAt {value : Json} {key : String} {m : String × Json}
    (h : m ∈ value.membersAt key) : sizeOf m.2 < sizeOf value := by
  unfold membersAt at h
  cases hg : value.get? key with
  | none => simp [hg] at h
  | some member =>
    cases member <;> simp [hg, members?] at h
    exact Nat.lt_trans (sizeOf_lt_of_mem_members h) (sizeOf_lt_of_get? hg)

end Json

end ApiLint
