import ApiLint.Ruleset.Json
import ApiLint.Ruleset.Yaml

/-!
# Rulesets in files

A file whose name has the extension `json` holds JSON, and any other file holds YAML.
-/

namespace ApiLint.Ruleset

/-- What follows the last dot of a file name, unless the name begins with that dot. -/
def extension? (path : String) : Option String :=
  let name := (path.toList.reverse.takeWhile (· ≠ '/')).reverse
  let last := (name.reverse.takeWhile (· ≠ '.')).reverse
  if name.length ≤ last.length + 1 ∨ name = ['.', '.'] then none else some (String.ofList last)

/-- The ruleset of a file, given its bytes if the file is there. -/
def ofFile (path : String) : Option ByteArray → Except ConfigError Ruleset
  | none => throw (.io "No such file or directory (os error 2)")
  | some bytes =>
    match String.fromUTF8? bytes with
    | none => throw (.io "stream did not contain valid UTF-8")
    | some text => if extension? path = some "json" then ofJsonText text else ofYamlText text

end ApiLint.Ruleset
