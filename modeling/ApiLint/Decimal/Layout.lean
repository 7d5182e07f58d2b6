import ApiLint.Decimal.Shortest

/-!
# Writing doubles

A `Layout` says how the shortest digits of a double are laid out: where positional notation ends,
whether a whole number keeps its point, and which of two equally near decimals is written.
-/

namespace ApiLint

/-- The choices that a text of a double leaves open. -/
structure Layout where
  /-- The least and the greatest position of the point that are written without an exponent;
  without a range every position is. -/
  positional : Option (Int × Int)
  /-- Whether a whole number ends in `.0`. -/
  keepsPoint : Bool
  tie : Tie

namespace Layout

def isPositional (layout : Layout) (point : Int) : Bool :=
  match layout.positional with
  | none => true
  | some (least, greatest) => least ≤ point && point ≤ greatest

/-- Digits without an exponent; `point` digits stand before the point. -/
def withoutExponent (layout : Layout) (digits : List Char) (point : Int) : List Char :=
  if point ≤ 0 then '0' :: '.' :: List.replicate (-point).toNat '0' ++ digits
  else if digits.length ≤ point then
    digits ++ List.replicate (point.toNat - digits.length) '0' ++
      (if layout.keepsPoint then ['.', '0'] else [])
  else digits.take point.toNat ++ '.' :: digits.drop point.toNat

/-- One digit before the point, the others after it, and a signed exponent. -/
def withExponent (digits : List Char) (point : Int) : List Char :=
  let fraction := if digits.length ≤ 1 then [] else '.' :: digits.drop 1
  let sign := if point - 1 < 0 then '-' else '+'
  digits.take 1 ++ fraction ++ 'e' :: sign :: (toString (point - 1).natAbs).toList

def unsigned (layout : Layout) (x : Binary64) : List Char :=
  if x.isZero then '0' :: (if layout.keepsPoint then ['.', '0'] else [])
  else
    let (digits, exponent) := (Decimal.shortest layout.tie x).trimmed
    let point := digits.length + exponent
    if layout.isPositional point then layout.withoutExponent digits point
    else withExponent digits point

/-- The text of a double; minus zero keeps its sign. -/
def render (layout : Layout) (x : Binary64) : String :=
  String.ofList ((if x.negative then ['-'] else []) ++ layout.unsigned x)

end Layout

end ApiLint
