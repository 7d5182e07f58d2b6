import ApiLint.Path.Pointer
import ApiLint.Proofs.Except
import ApiLint.Proofs.Path.Text

/-!
# Reading pointers

RFC 6901 says how a pointer is read: what stands between its slashes are its tokens, in which `~1`
and then `~0` are turned back into what they stand for, and a token goes to a member of an object or
to an element of a list.  The tokens of the pointer of a path are the texts of its steps, so the
pointer tells all that there is to know about where the path leads.
-/

namespace ApiLint

namespace Pointer

/-! ## How a pointer is read -/

/-- Replaces every occurrence of a pair of characters, from left to right. -/
def replacePair (first second new : Char) : List Char → List Char
  | a :: b :: rest =>
    if a = first ∧ b = second then new :: replacePair first second new rest
    else a :: replacePair first second new (b :: rest)
  | rest => rest

/-- What an escaped text stands for. -/
def unescape (text : List Char) : List Char :=
  replacePair '~' '0' '~' (replacePair '~' '1' '/' text)

/-- Whether each tilde begins an escape. -/
def isEscaped : List Char → Bool
  | '~' :: '0' :: rest => isEscaped rest
  | '~' :: '1' :: rest => isEscaped rest
  | '~' :: _ => false
  | _ :: rest => isEscaped rest
  | [] => true

/-- What a text between slashes stands for; nothing when it is no escaped text. -/
def token? (text : List Char) : Option String :=
  if isEscaped text then some (String.ofList (unescape text)) else none

/-- The tokens of a pointer; nothing when the text is no pointer. -/
def tokens? (pointer : String) : Option (List String) :=
  match pointer.toList with
  | [] => some []
  | '/' :: rest => (rest.splitOn '/').mapM token?
  | _ => none

/-- The index that a token writes: decimal digits, without a zero before others. -/
def index? (token : String) : Option Nat :=
  let digits := token.toList
  if digits ≠ [] ∧ digits.all Char.isDigit ∧ (digits.head? ≠ some '0' ∨ digits = ['0']) then
    some (Nat.ofDigitChars 10 digits 0)
  else none

/-- The node that a token goes to. -/
def child? (node : Json) (token : String) : Option Json :=
  match node with
  | .obj members => members.lookup token
  | .arr items => (index? token).bind (items[·]?)
  | _ => none

/-- The node of a document that a pointer goes to. -/
def evaluate? (pointer : String) (document : Json) : Option Json := do
  (← tokens? pointer).foldlM child? document

/-! ## Tokens -/

theorem replacePair_cons_of_ne {first second new a : Char} (h : a ≠ first) (rest : List Char) :
    replacePair first second new (a :: rest) = a :: replacePair first second new rest := by
  cases rest with
  | nil => rfl
  | cons b rest => rw [replacePair, if_neg (fun both => h both.1)]

/-- Replacements that can be made character by character. -/
theorem replacePair_flatMap {first second new : Char} {before after : Char → List Char}
    (h : ∀ c rest, replacePair first second new (before c ++ rest) =
      after c ++ replacePair first second new rest) (text : List Char) :
    replacePair first second new (text.flatMap before) = text.flatMap after := by
  induction text with
  | nil => rfl
  | cons c rest ih => rw [List.flatMap_cons, h, ih, List.flatMap_cons]

/-- How a character stands in a text in which only tildes are escaped. -/
def escapedTilde (c : Char) : List Char := if c = '~' then ['~', '0'] else [c]

theorem replacePair_escapedChar (c : Char) (rest : List Char) :
    replacePair '~' '1' '/' (Path.escapedChar c ++ rest) =
      escapedTilde c ++ replacePair '~' '1' '/' rest := by
  unfold Path.escapedChar escapedTilde
  by_cases htilde : c = '~'
  · rw [if_pos htilde, if_pos htilde]
    exact congrArg _ (replacePair_cons_of_ne (by decide) rest)
  · rw [if_neg htilde, if_neg htilde]
    by_cases hslash : c = '/'
    · rw [if_pos hslash, hslash]
      rfl
    · rw [if_neg hslash]
      exact replacePair_cons_of_ne htilde rest

theorem replacePair_escapedTilde (c : Char) (rest : List Char) :
    replacePair '~' '0' '~' (escapedTilde c ++ rest) = [c] ++ replacePair '~' '0' '~' rest := by
  unfold escapedTilde
  split
  · next h =>
    rw [h]
    rfl
  · next h => exact replacePair_cons_of_ne h rest

/-- How a text stands between the slashes of a pointer. -/
def escape (text : String) : List Char := text.toList.flatMap Path.escapedChar

/-- To escape a text is to replace all its tildes and then all its slashes. -/
theorem escape_eq_flatMap_flatMap (text : String) :
    escape text = (text.toList.flatMap escapedTilde).flatMap fun c =>
      if c = '/' then ['~', '1'] else [c] := by
  rw [escape, List.flatMap_assoc]
  refine congrArg (List.flatMap · text.toList) (funext fun c => ?_)
  unfold Path.escapedChar escapedTilde
  by_cases htilde : c = '~' <;> simp [htilde]

theorem unescape_escape (text : String) : unescape (escape text) = text.toList := by
  rw [unescape, escape, replacePair_flatMap replacePair_escapedChar,
    replacePair_flatMap replacePair_escapedTilde, List.flatMap_singleton']

theorem isEscaped_escape (text : String) : isEscaped (escape text) := by
  unfold escape
  induction text.toList with
  | nil => rfl
  | cons c rest ih =>
    rw [List.flatMap_cons, Path.escapedChar]
    split
    · exact ih
    · split
      · exact ih
      · next htilde _ => simpa [isEscaped, htilde] using ih

/-- The second replacement leaves no slash. -/
theorem slash_notMem_escape (text : String) : '/' ∉ escape text := by
  rw [escape_eq_flatMap_flatMap]
  simp only [List.mem_flatMap, not_exists, not_and]
  intro c _
  split
  · decide
  · next h => simpa using Ne.symm h

theorem token?_escape (text : String) : token? (escape text) = some text := by
  rw [token?, if_pos (isEscaped_escape text), unescape_escape, String.ofList_toList]

/-! ## Pointers of paths -/

theorem flatMap_pointerToken_cons (step : Segment) (rest : List Segment) :
    (step :: rest).flatMap Path.pointerToken =
      '/' :: ['/'].intercalate (((step :: rest).map Segment.text).map escape) := by
  induction rest generalizing step with
  | nil => simp [Path.pointerToken, escape]
  | cons next rest ih =>
    rw [List.flatMap_cons, ih]
    simp [Path.pointerToken, escape, List.intercalate_cons_cons]

/-- The tokens of the pointer of a path are the texts of its steps. -/
theorem tokens?_toPointer (path : Path) :
    tokens? path.toPointer = some (path.segments.map Segment.text) := by
  rw [tokens?, Path.toPointer, String.toList_ofList]
  cases path.segments with
  | nil => rfl
  | cons step rest =>
    have apart : ∀ token ∈ ((step :: rest).map Segment.text).map escape, '/' ∉ token := by
      intro token htoken
      obtain ⟨text, -, rfl⟩ := List.mem_map.1 htoken
      exact slash_notMem_escape text
    rw [flatMap_pointerToken_cons]
    change (List.splitOn '/' _).mapM token? = _
    rw [List.splitOn_intercalate '/' apart (by simp)]
    exact mapM_map_eq_pure fun text _ => token?_escape text

theorem toPointer_eq_iff {first second : Path} :
    first.toPointer = second.toPointer ↔
      first.segments.map Segment.text = second.segments.map Segment.text := by
  have ofTexts (path : Path) : path.toPointer = String.ofList
      ((path.segments.map Segment.text).flatMap fun text => '/' :: escape text) := by
    rw [List.flatMap_map]
    rfl
  constructor
  · intro h
    have tokens := congrArg tokens? h
    rwa [tokens?_toPointer, tokens?_toPointer, Option.some.injEq] at tokens
  · intro h
    rw [ofTexts, ofTexts, h]

/-! ## Evaluation -/

/-- A token that goes to a node is the text of a step that leads there. -/
theorem step?_of_child? {node inner : Json} {step : Segment}
    (h : child? node step.text = some inner) : node.step? step = some inner := by
  rw [← Json.step?_key_text]
  cases node with
  | obj members => exact h
  | arr items =>
    obtain ⟨i, hi, hitem⟩ := Option.bind_eq_some_iff.1 h
    rw [index?, Option.ite_none_right_eq_some] at hi
    obtain ⟨⟨hne, digits, -⟩, hi⟩ := hi
    rw [← Segment.indexOfKey?_of_digits hne (List.all_eq_true.1 digits)] at hi
    exact Option.bind_eq_some_iff.2 ⟨i, hi, hitem⟩
  | _ => cases h

theorem follow?_of_foldlM_child? {node last : Json} {steps : List Segment}
    (h : (steps.map Segment.text).foldlM child? node = some last) :
    node.follow? steps = some last := by
  induction steps generalizing node with
  | nil => exact h
  | cons step rest ih =>
    rw [List.map_cons, List.foldlM_cons] at h
    obtain ⟨inner, hinner, hrest⟩ := Option.bind_eq_some_iff.1 h
    rw [Json.follow?_cons, step?_of_child? hinner, Option.bind_some]
    exact ih hrest

/-- The pointer of a path denotes it: read back, its tokens are the texts of the steps.  So paths
have the same pointer exactly when their steps have the same texts, be they keys or indices, and
then they lead to the same node of every document; and where the pointer goes to a node of a
document, the path leads to that node. -/
theorem toPointer_denotes (path : Path) :
    tokens? path.toPointer = some (path.segments.map Segment.text) ∧
      (∀ other : Path, path.toPointer = other.toPointer ↔
        path.segments.map Segment.text = other.segments.map Segment.text) ∧
      (∀ other : Path, path.toPointer = other.toPointer →
        ∀ document, path.resolve? document = other.resolve? document) ∧
      ∀ document node, evaluate? path.toPointer document = some node →
        path.resolve? document = some node := by
  refine ⟨tokens?_toPointer path, fun _ => toPointer_eq_iff, fun other h document => ?_,
    fun document node h => ?_⟩
  · exact Json.follow?_eq_of_texts (toPointer_eq_iff.1 h) document
  · rw [evaluate?, tokens?_toPointer] at h
    exact follow?_of_foldlM_child? h

/-- Keys that look like escapes, an empty key, and an index in the place of a numeric key. -/
theorem resolve?_of_pointer_with_escapes :
    let path : Path := ⟨[.key "~1", .key "", .key "a/~01", .index 1]⟩
    let other : Path := ⟨[.key "~1", .key "", .key "a/~01", .key "1"]⟩
    let document : Json := .obj [("~1", .obj [("", .obj [("a/~01", .arr [.null, .str "found"])])])]
    path.toPointer = "/~01//a~1~001/1" ∧ path.toPointer = other.toPointer ∧
      evaluate? path.toPointer document = some (.str "found") ∧
      path.resolve? document = some (.str "found") ∧
      other.resolve? document = some (.str "found") := by
  intro path other document
  obtain ⟨-, -, same, found⟩ := toPointer_denotes path
  have written : path.toPointer = "/~01//a~1~001/1" := by decide
  have alike : path.toPointer = other.toPointer := by decide
  have node : evaluate? path.toPointer document = some (.str "found") := by
    rw [evaluate?, tokens?_toPointer]
    rfl
  have resolved := found document (.str "found") node
  exact ⟨written, alike, node, resolved, same other alike document ▸ resolved⟩

end Pointer

end ApiLint
