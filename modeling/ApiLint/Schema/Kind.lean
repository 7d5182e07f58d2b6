import ApiLint.Schema.Composition
import ApiLint.Schema.Properties

/-!
# Kinds of schemas

What values a schema describes. Each kind has a test of single nodes, which is lifted over
composition in strict mode; the kind of a schema is the first that covers it, the more specific
kinds coming before those they refine. A `type` that is no string gives no kind.
-/

namespace ApiLint.Schema

inductive Kind where
  | array
  | binary
  | boolean
  | byte
  | date
  | dateTime
  | double
  | enumeration
  | float
  | int32
  | int64
  | integer
  | number
  | object
  | string
deriving DecidableEq, Inhabited

/-- Whether the `type` of a node is this string. -/
def hasType (node : Json) (type : String) : Bool := node.strAt? "type" == some type

namespace Kind

/-- In the order in which kinds are tried. -/
def all : List Kind :=
  [.array, .binary, .boolean, .byte, .date, .dateTime, .double, .enumeration, .float, .int32,
    .int64, .integer, .number, .object, .string]

def text : Kind → String
  | .array => "array"
  | .binary => "binary"
  | .boolean => "boolean"
  | .byte => "byte"
  | .date => "date"
  | .dateTime => "date-time"
  | .double => "double"
  | .enumeration => "enumeration"
  | .float => "float"
  | .int32 => "int32"
  | .int64 => "int64"
  | .integer => "integer"
  | .number => "number"
  | .object => "object"
  | .string => "string"

/-- Whether a node has this type and this format. -/
def hasFormat (node : Json) (type format : String) : Bool :=
  hasType node type && node.strAt? "format" == some format

/-- Whether a keyword is switched on: absent, null, false, zero and the empty text are off. -/
def isOn : Option Json → Bool
  | none | some .null | some (.bool false) => false
  | some (.num n) => !n.isZero
  | some (.str text) => text != ""
  | some _ => true

/-- Whether a single node is of this kind. Without a `type`, items make an array, and properties
or additional properties make an object. -/
def fits (kind : Kind) (node : Json) : Bool :=
  match kind with
  | .array => hasType node "array" || (!node.has "type" && node.has "items")
  | .binary => hasFormat node "string" "binary"
  | .boolean => hasType node "boolean"
  | .byte => hasFormat node "string" "byte"
  | .date => hasFormat node "string" "date"
  | .dateTime => hasFormat node "string" "date-time"
  | .double => hasFormat node "number" "double"
  | .enumeration => hasType node "string" && (node.get? "enum").any Json.isArr
  | .float => hasFormat node "number" "float"
  | .int32 => hasFormat node "integer" "int32"
  | .int64 => hasFormat node "integer" "int64"
  | .integer => hasType node "integer"
  | .number => hasType node "number"
  | .object =>
    hasType node "object" ||
      (!node.has "type" &&
        ((node.object? propertiesKeyword).isSome || isOn (node.get? "additionalProperties")))
  | .string => hasType node "string"

/-- Whether a schema, composition taken into account, is of this kind. -/
def covers (kind : Kind) (schema : Json) : Bool := lift .strict kind.fits schema

/-- The first kind that covers a schema. -/
def of? (schema : Json) : Option Kind := all.find? (·.covers schema)

end Kind

/-- Whether a schema describes booleans, numbers or strings of any format. -/
def isPrimitive (schema : Json) : Bool :=
  [Kind.boolean, .integer, .number, .string].any (·.covers schema)

end ApiLint.Schema
