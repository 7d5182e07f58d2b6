import ApiLint.Decode.Choice

/-!
# Reading records in any notation

A `Reader` offers what a notation for data can be asked for. Records are read in the order in which
they are written, so the first problem of a text is the one that is reported; that a field is
missing shows at the end of its record.
-/

namespace ApiLint

/-- A record as it is written: with keys, or as a list of fields in their order. It is closed
unless the text ends in a fault before its end. -/
inductive Record (ν : Type) where
  | named (members : List (ν × ν)) (closed : Bool)
  | positional (items : List ν) (closed : Bool)

/-- How the values `ν` of a notation are read, in a monad that can fail. -/
structure Reader (ν : Type) (m : Type → Type) where
  /-- Fails with a fault of a value. -/
  fail : {α : Type} → ν → Fault → m α
  text : ν → m String
  optionalText : ν → m (Option String)
  flag : ν → m Bool
  choice : {α : Type} → Choices α → ν → m α
  /-- A value of any shape. -/
  any : ν → m Json
  /-- Goes past a value that is not wanted. -/
  skip : ν → m Unit
  record : ν → m (Record ν)

/-- The fields of a record that are declared, and what to do about others. -/
structure Shape where
  declared : List String
  /-- Whether other fields are an error. -/
  strict : Bool

namespace Reader

variable {ν σ : Type} {m : Type → Type} [Monad m]

/-- Reads members in their order; `seen` are the fields read so far. -/
def members (r : Reader ν m) (shape : Shape) (read : σ → String → ν → m σ) (whole : ν)
    (closed : Bool) : List String → σ → List (ν × ν) → m σ
  | _, fields, [] => if closed then pure fields else r.fail whole .malformed
  | seen, fields, (key, value) :: rest => do
    let name ← r.text key
    if name ∈ shape.declared then
      if name ∈ seen then r.fail whole (.duplicateField name)
      else
        let fields ← read fields name value
        members r shape read whole closed (name :: seen) fields rest
    else if shape.strict then r.fail whole (.unknownField name shape.declared)
    else
      r.skip value
      members r shape read whole closed seen fields rest

/-- Reads the items of a record that is written as a list. -/
def items (r : Reader ν m) (shape : Shape) (read : σ → String → ν → m σ) (whole : ν)
    (closed : Bool) (start : σ) (items : List ν) : m σ := do
  let fields ← (shape.declared.zip items).foldlM (fun fields (name, item) => read fields name item)
    start
  if closed ∧ items.length ≤ shape.declared.length then pure fields else r.fail whole .malformed

/-- Reads the fields of a record, and makes of them what `finish` says. Of a missing field only a
record with keys can tell the name. -/
def fields {α : Type} (r : Reader ν m) (shape : Shape) (read : σ → String → ν → m σ) (start : σ)
    (finish : σ → Except String α) (value : ν) : m α := do
  match ← r.record value with
  | .named members closed =>
    match finish (← r.members shape read value closed [] start members) with
    | .ok result => pure result
    | .error missing => r.fail value (.missingField missing)
  | .positional items closed =>
    match finish (← r.items shape read value closed start items) with
    | .ok result => pure result
    | .error _ => r.fail value .malformed

/-- Reads the entries of a map; of entries with one key the last counts. -/
def entries {α : Type} (r : Reader ν m) (read : ν → m α) (value : ν) : m (List (String × α)) := do
  match ← r.record value with
  | .named members closed =>
    let entries ← members.mapM fun (key, value) => do
      let name ← r.text key
      let entry ← read value
      pure (name, entry)
    if closed then pure entries else r.fail value .malformed
  | .positional _ _ => r.fail value .malformed

end Reader

end ApiLint
