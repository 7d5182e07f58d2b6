import ApiLint.Binary64

/-!
# The shortest decimal that reads back

Among the decimals that round to a given double, `Decimal.shortest` takes one with the fewest
digits and, of those, the nearest to the double. It looks at the two neighbours of the double on
the grid of one digit, of two digits, and so on: if any point of a grid rounds to the double, then
one of its two neighbours on that grid does.
-/

namespace ApiLint

/-- The number `digits * 10 ^ exponent`. -/
structure Decimal where
  digits : Nat
  exponent : Int
deriving DecidableEq

/-- Which of two equally near decimals is taken. -/
inductive Tie where
  | toEven
  | up
deriving DecidableEq

namespace Decimal

/-- The reals that round to a double, in quarters of its unit, and whether the ends belong. -/
structure Span where
  low : Nat
  middle : Nat
  high : Nat
  closed : Bool

/-- The reals that round to `x`. Below a power of two the doubles lie twice as close. -/
def Span.of (x : Binary64) : Span where
  low := 4 * x.significand - (if x.significand = Nat.pow 2 52 ∧ -1074 < x.exponent then 1 else 2)
  middle := 4 * x.significand
  high := 4 * x.significand + 2
  closed := x.significand % 2 = 0

/-- A quarter of the unit of `x`, divided by `10 ^ grid`, as numerator and denominator. -/
def quarterUnit (x : Binary64) (grid : Int) : Nat × Nat :=
  let (num, den) :=
    if 2 ≤ x.exponent then (Nat.pow 2 (x.exponent - 2).toNat, 1)
    else (1, Nat.pow 2 (2 - x.exponent).toNat)
  if 0 ≤ grid then (num, den * Nat.pow 10 grid.toNat) else (num * Nat.pow 10 (-grid).toNat, den)

/-- The number of digits before the decimal point of `num / den`; for a number below one, minus
the number of zeros that follow the point. -/
def pointPosition (num den : Nat) : Int :=
  if den ≤ num then (toString (num / den)).length else 1 - ((toString (den / num)).length : Int)

/-- Whether `count * den` lies among the reals of the span, counted in `num`. -/
def Span.covers (span : Span) (num den count : Nat) : Bool :=
  if span.closed then span.low * num ≤ count * den ∧ count * den ≤ span.high * num
  else span.low * num < count * den ∧ count * den < span.high * num

/-- A neighbour of the double on one grid that rounds to the double: of two the nearer. -/
def Span.onGrid? (span : Span) (tie : Tie) (num den : Nat) : Option Nat :=
  let below := span.middle * num / den
  match span.covers num den below, span.covers num den (below + 1) with
  | true, false => some below
  | false, true => some (below + 1)
  | false, false => none
  | true, true =>
    match compare (2 * span.middle * num) ((2 * below + 1) * den), tie with
    | .lt, _ => some below
    | .gt, _ => some (below + 1)
    | .eq, .up => some (below + 1)
    | .eq, .toEven => some (if below % 2 = 0 then below else below + 1)

/-- Seventeen digits tell any two doubles apart. -/
def digitLimit : Nat := 17

/-- The shortest decimal that rounds to the magnitude of `x`. -/
def shortest (tie : Tie) (x : Binary64) : Decimal :=
  let span := Span.of x
  let (num, den) := quarterUnit x 0
  let point := pointPosition (span.middle * num) den
  let candidate (count : Nat) : Option Decimal :=
    let grid := point - count
    let (num, den) := quarterUnit x grid
    (span.onGrid? tie num den).map fun digits => ⟨digits, grid⟩
  ((List.range' 1 digitLimit).findSome? candidate).getD ⟨0, 0⟩

/-- The digits without the zeros at their end, and the power of ten that makes up for them. -/
def trimmed (x : Decimal) : List Char × Int :=
  let digits := (toString x.digits).toList
  let kept := (digits.reverse.dropWhile (· = '0')).reverse
  (kept, x.exponent + (digits.length - kept.length : Nat))

end Decimal

end ApiLint
