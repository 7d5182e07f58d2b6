import ApiLint.Decimal.Layout
import ApiLint.Document.Walk
import ApiLint.Rule.Function

/-!
# Bounds in the right order

Reports a lower bound that is greater than its upper bound, anywhere in a document. Bounds are
compared and written as doubles.
-/

namespace ApiLint.Rule.MinMaxConsistency

/-- Keywords for a lower and for an upper bound. -/
def bounds : List (String × String) :=
  [("minimum", "maximum"), ("minLength", "maxLength"), ("minItems", "maxItems"),
    ("minProperties", "maxProperties")]

/-- Bounds in messages never have an exponent, whole ones have no point, and a tie goes up. -/
def layout : Layout := ⟨none, false, .up⟩

/-- The bound under a keyword, rounded to a double. -/
def bound? (node : Json) (keyword : String) : Option Binary64 :=
  ((node.get? keyword).bind Json.num?).bind Number.toBinary64

/-- The diagnostic about one pair of bounds of a node. -/
def ofPair (node : Json) (path : Path) (lower upper : String) : List Diagnostic :=
  match bound? node lower, bound? node upper with
  | some least, some greatest =>
    if greatest.rank < least.rank then
      [⟨s!"{lower} ({layout.render least}) must not be greater than " ++
          s!"{upper} ({layout.render greatest})", path.member lower⟩]
    else []
  | _, _ => []

def ofNode (node : Json) (path : Path) : List Diagnostic :=
  bounds.flatMap fun (lower, upper) => ofPair node path lower upper

def diagnostics (target : Json) (path : Path) : List Diagnostic :=
  (Document.containers target).flatMap fun visit => ofNode visit.node (path.join visit.steps)

def function : RuleFunction where
  name := "min-max-consistency"
  check target _ site := pure (diagnostics target site.path)

end ApiLint.Rule.MinMaxConsistency
