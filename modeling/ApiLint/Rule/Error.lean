/-!
# What can be wrong with a rule or a ruleset

A rule error concerns one rule and stops that rule alone. A configuration error means that there
is no ruleset to run.
-/

namespace ApiLint

inductive RuleError where
  | missingOption (rule option : String)
  | invalidOption (rule option reason : String)
  | unknownFunction (name : String)
deriving DecidableEq

def RuleError.message : RuleError → String
  | .missingOption rule option =>
    s!"rule '{rule}' is missing required function option '{option}'"
  | .invalidOption rule option reason =>
    s!"rule '{rule}' has invalid function option '{option}': {reason}"
  | .unknownFunction name => s!"unknown rule function '{name}'"

inductive ConfigError where
  | io (reason : String)
  /-- A ruleset text that does not decode; faults of form give no reason. -/
  | parse (format : String) (reason : Option String)
  | unknownSeverity (name : String)
deriving DecidableEq

def ConfigError.message? : ConfigError → Option String
  | .io reason => some s!"io error: {reason}"
  | .parse format reason => reason.map fun reason => s!"invalid {format} ruleset: {reason}"
  | .unknownSeverity name => some s!"unknown severity '{name}'"

/-- Either kind of error. -/
inductive LintError where
  | rule (error : RuleError)
  | config (error : ConfigError)
deriving DecidableEq

def LintError.message? : LintError → Option String
  | .rule error => some s!"rule error: {error.message}"
  | .config error => error.message?.map fun message => s!"configuration error: {message}"

end ApiLint
