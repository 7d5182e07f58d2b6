/-!
# Finite double-precision numbers

A finite double is kept as its sign and its place among the non-negative doubles in increasing
order, so that comparing doubles is comparing places. `Binary64.ofQuotient` rounds an exact
quotient to the nearest double, a tie to the one with the even significand.
-/

namespace ApiLint

/-- A finite double: its sign, and its place among the non-negative doubles, zero being first. -/
structure Binary64 where
  negative : Bool
  place : Nat
  place_lt : place < 2047 * Nat.pow 2 52
deriving DecidableEq

namespace Binary64

def zero (negative : Bool) : Binary64 := ⟨negative, 0, by decide⟩

instance : Inhabited Binary64 := ⟨zero false⟩

/-- The whole number `m` in the magnitude `m * 2 ^ exponent`. -/
def significand (x : Binary64) : Nat :=
  if x.place < Nat.pow 2 53 then x.place else Nat.pow 2 52 + x.place % Nat.pow 2 52

/-- The power of two that the significand is multiplied by. -/
def exponent (x : Binary64) : Int :=
  if x.place < Nat.pow 2 53 then -1074 else (x.place / Nat.pow 2 52 : Nat) - 1075

/-- Doubles in numeric order; both zeros have rank zero. -/
def rank (x : Binary64) : Int := if x.negative then -(x.place : Int) else x.place

/-- Numeric equality: the two zeros are equal. -/
def same (x y : Binary64) : Bool := x.rank == y.rank

def isZero (x : Binary64) : Bool := x.place == 0

/-! ## Rounding -/

/-- The quotient `num / 2 ^ shift / den` as numerator and denominator, for a shift of either
sign. -/
def shifted (num den : Nat) (shift : Int) : Nat × Nat :=
  if 0 ≤ shift then (num, den * Nat.pow 2 shift.toNat)
  else (num * Nat.pow 2 (-shift).toNat, den)

/-- The whole number nearest to `num / den`, of two the even one. -/
def roundHalfEven (num den : Nat) : Nat :=
  let q := num / den
  let r := num % den
  if den < 2 * r ∨ (den = 2 * r ∧ q % 2 = 1) then q + 1 else q

/-- The greatest `k` with `2 ^ k ≤ num / den`, for positive `num` and `den`. -/
def floorLog2 (num den : Nat) : Int :=
  let k := (num.log2 : Int) - den.log2
  let (n, d) := shifted num den k
  if d ≤ n then k else k - 1

/-- The place of the double nearest to `num / den`, as if doubles went on without end. -/
def nearestPlace (num den : Nat) : Nat :=
  if num = 0 then 0
  else
    let exponent := max (floorLog2 num den - 52) (-1074)
    let (n, d) := shifted num den exponent
    (exponent + 1074).toNat * Nat.pow 2 52 + roundHalfEven n d

/-- The double nearest to `num / den`, or nothing when that is beyond the greatest double. -/
def ofQuotient (negative : Bool) (num den : Nat) : Option Binary64 :=
  let place := nearestPlace num den
  if h : place < 2047 * Nat.pow 2 52 then some ⟨negative, place, h⟩ else none

def ofInt (n : Int) : Option Binary64 := ofQuotient (n < 0) n.natAbs 1

/-- The double nearest to `digits * 10 ^ exponent`. -/
def ofDecimal (negative : Bool) (digits : Nat) (exponent : Int) : Option Binary64 :=
  let length : Int := (toString digits).length
  if digits = 0 ∨ exponent + length < -330 then some (zero negative)
  else if 330 < exponent + length then none
  else if 0 ≤ exponent then ofQuotient negative (digits * Nat.pow 10 exponent.toNat) 1
  else ofQuotient negative digits (Nat.pow 10 (-exponent).toNat)

/-! ## Scaling in double arithmetic -/

/-- The magnitude as numerator and denominator. -/
def magnitude (x : Binary64) : Nat × Nat :=
  if 0 ≤ x.exponent then (x.significand * Nat.pow 2 x.exponent.toNat, 1)
  else (x.significand, Nat.pow 2 (-x.exponent).toNat)

/-- The product, rounded; the sign is that of the first factor. -/
def scaleUp (x y : Binary64) : Option Binary64 :=
  let (a, b) := x.magnitude
  let (c, d) := y.magnitude
  ofQuotient x.negative (a * c) (b * d)

/-- The quotient, rounded; the sign is that of the dividend. -/
def scaleDown (x y : Binary64) : Option Binary64 :=
  let (a, b) := x.magnitude
  let (c, d) := y.magnitude
  ofQuotient x.negative (a * d) (b * c)

def powerOfTen (k : Nat) : Option Binary64 := ofQuotient false (Nat.pow 10 k) 1

def timesPowerOfTen (x : Binary64) (k : Nat) : Option Binary64 := (powerOfTen k).bind x.scaleUp

def overPowerOfTen (x : Binary64) (k : Nat) : Option Binary64 := (powerOfTen k).bind x.scaleDown

/-- Multiplies by `10 ^ exponent` with one rounding for each power of ten that is itself a
double: below `10 ^ -308` the number is first divided by `10 ^ 308` as often as needed. -/
def scaleByTen (x : Binary64) (exponent : Int) : Option Binary64 :=
  if 308 < exponent then
    if x.isZero then some x else none
  else if 0 ≤ exponent then x.timesPowerOfTen exponent.toNat
  else if -308 ≤ exponent then x.overPowerOfTen (-exponent).toNat
  else if x.isZero then some x
  else (x.overPowerOfTen 308).bind fun y => y.scaleByTen (exponent + 308)
termination_by (-exponent).toNat

end Binary64

end ApiLint
