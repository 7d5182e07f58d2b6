import ApiLint.Json.Token

/-!
# A JSON text as far as it is well formed

Whoever decodes a text wants the first problem in it, be it a fault of form or of content. A
`Draft` is the tree of a text up to its first fault of form, so that decoding it in order meets
problems in the order of the text.
-/

namespace ApiLint.Json

inductive Draft where
  | null
  | bool (value : Bool)
  | number (value : Number)
  | string (text : String)
  | list (items : List Draft) (closed : Bool)
  /-- Members in their order, repeated keys included; a key without a value is one that can not
  be read. -/
  | record (members : List (Option String × Draft)) (closed : Bool)
  /-- Well formed, but standing for no value: beyond the greatest double, an unpaired surrogate,
  or nested too deeply. -/
  | unreadable
  /-- The text has a fault here, and nothing follows. -/
  | broken
deriving Inhabited

namespace Draft

/-! ## Building -/

/-- A container that is not closed yet, its contents in reverse. -/
inductive Unfinished where
  | list (items : List Draft)
  | record (members : List (Option String × Draft)) (key : Option (Option String))

inductive Wanted where
  | value
  | valueOrClose
  | key
  | keyOrClose
  | colon
  | separator
  | nothing
deriving DecidableEq

structure Build where
  outer : List Unfinished
  wanted : Wanted
  result : Option Draft

def Build.start : Build := ⟨[], .value, none⟩

/-- Puts a finished value where one was wanted. -/
def Build.place (b : Build) (value : Draft) : Build :=
  match b.outer with
  | [] => { b with wanted := .nothing, result := some value }
  | .list items :: outer =>
    { b with outer := .list (value :: items) :: outer, wanted := .separator }
  | .record members key :: outer =>
    { b with
      outer := .record ((key.getD none, value) :: members) none :: outer
      wanted := .separator }

/-- The scalar that a token stands for. -/
def ofToken? : Token → Option Draft
  | .null => some .null
  | .bool value => some (.bool value)
  | .number value => some (value.elim .unreadable .number)
  | .string text => some (text.elim .unreadable .string)
  | _ => none

def Build.closeList? (b : Build) : Option Build :=
  match b.outer with
  | .list items :: outer => some ({ b with outer }.place (.list items.reverse true))
  | _ => none

def Build.closeRecord? (b : Build) : Option Build :=
  match b.outer with
  | .record members _ :: outer => some ({ b with outer }.place (.record members.reverse true))
  | _ => none

def Build.value? (b : Build) (token : Token) : Option Build :=
  match token with
  | .openList => some { b with outer := .list [] :: b.outer, wanted := .valueOrClose }
  | .openRecord => some { b with outer := .record [] none :: b.outer, wanted := .keyOrClose }
  | token => (ofToken? token).map b.place

def Build.key? (b : Build) (token : Token) : Option Build :=
  match token, b.outer with
  | .string text, .record members _ :: outer =>
    some { b with outer := .record members (some text) :: outer, wanted := .colon }
  | _, _ => none

/-- One token further; nothing when the token is not wanted here. -/
def Build.step? (b : Build) (token : Token) : Option Build :=
  match b.wanted, token with
  | .valueOrClose, .closeList => b.closeList?
  | .keyOrClose, .closeRecord => b.closeRecord?
  | .value, token | .valueOrClose, token => b.value? token
  | .key, token | .keyOrClose, token => b.key? token
  | .colon, .colon => some { b with wanted := .value }
  | .separator, .closeList => b.closeList?
  | .separator, .closeRecord => b.closeRecord?
  | .separator, .comma =>
    match b.outer with
    | .list _ :: _ => some { b with wanted := .value }
    | _ => some { b with wanted := .key }
  | _, _ => none

/-- The tree of containers that are never closed; a key without a value gets a broken one. -/
def abandoned : List Unfinished → Option Draft → Draft
  | [], inner => inner.getD .broken
  | .list items :: outer, inner =>
    abandoned outer (some (.list (inner.toList ++ items).reverse false))
  | .record members none :: outer, _ => abandoned outer (some (.record members.reverse false))
  | .record members (some key) :: outer, inner =>
    abandoned outer (some (.record ((key, inner.getD .broken) :: members).reverse false))

/-- The tree of a text, and whether nothing but blanks follows it. -/
structure Reading where
  draft : Draft
  alone : Bool

def Build.read (b : Build) : List Token → Reading
  | [] => ⟨b.result.getD (abandoned b.outer none), true⟩
  | token :: rest =>
    match b.step? token with
    | some b => b.read rest
    | none => ⟨b.result.getD (abandoned b.outer none), false⟩

/-! ## Depth -/

mutual

/-- Whether a draft has no fault of form. -/
def isWhole : Draft → Bool
  | .list items closed => closed && areWhole items
  | .record members closed => closed && areWholeMembers members
  | .broken => false
  | _ => true

def areWhole : List Draft → Bool
  | [] => true
  | item :: rest => item.isWhole && areWhole rest

def areWholeMembers : List (Option String × Draft) → Bool
  | [] => true
  | (_, value) :: rest => value.isWhole && areWholeMembers rest

end

/-- What stands for a container that is nested too deeply. -/
def pruned (draft : Draft) : Draft := if draft.isWhole then .unreadable else .broken

mutual

/-- Makes containers nested more than `limit` deep unreadable. -/
def limited : Nat → Draft → Draft
  | 0, .list items closed => pruned (.list items closed)
  | 0, .record members closed => pruned (.record members closed)
  | limit + 1, .list items closed => .list (limitedItems limit items) closed
  | limit + 1, .record members closed => .record (limitedMembers limit members) closed
  | _, draft => draft

def limitedItems (limit : Nat) : List Draft → List Draft
  | [] => []
  | item :: rest => item.limited limit :: limitedItems limit rest

def limitedMembers (limit : Nat) :
    List (Option String × Draft) → List (Option String × Draft)
  | [] => []
  | (key, value) :: rest => (key, value.limited limit) :: limitedMembers limit rest

end

/-- Containers may be nested this deep. -/
def depthLimit : Nat := 127

/-- The draft of a JSON text. -/
def ofText (text : String) : Reading :=
  let reading := Build.start.read (Token.ofChars text.toList)
  { reading with draft := reading.draft.limited depthLimit }

/-! ## Values -/

mutual

/-- The value that a draft stands for. Of members with one key the last gives the value, at the
place of the first. -/
def toJson? : Draft → Option Json
  | .null => some .null
  | .bool value => some (.bool value)
  | .number value => some (.num value)
  | .string text => some (.str text)
  | .list items true => .arr <$> toItems? items
  | .record members true => .obj <$> toMembers? [] members
  | _ => none

def toItems? : List Draft → Option (List Json)
  | [] => some []
  | item :: rest => do
    let item ← item.toJson?
    let rest ← toItems? rest
    some (item :: rest)

def toMembers? (done : List (String × Json)) :
    List (Option String × Draft) → Option (List (String × Json))
  | [] => some done
  | (some key, value) :: rest => do
    let value ← value.toJson?
    toMembers? (Json.insert done key value) rest
  | (none, _) :: _ => none

end

mutual

/-- The draft of a text that writes `value`. -/
def ofJson : Json → Draft
  | .null => .null
  | .bool value => .bool value
  | .num value => .number value
  | .str text => .string text
  | .arr items => .list (ofItems items) true
  | .obj members => .record (ofMembers members) true

def ofItems : List Json → List Draft
  | [] => []
  | item :: rest => ofJson item :: ofItems rest

def ofMembers : List (String × Json) → List (Option String × Draft)
  | [] => []
  | (key, value) :: rest => (some key, ofJson value) :: ofMembers rest

end

end Draft

/-- The value of a JSON text. -/
def parse? (text : String) : Option Json :=
  let reading := Draft.ofText text
  if reading.alone then reading.draft.toJson? else none

end ApiLint.Json
