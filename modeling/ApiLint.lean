import ApiLint.Decode.Findings
import ApiLint.Lint
import ApiLint.Path.Pointer
import ApiLint.Ruleset.File
import ApiLint.Schema.Parts
import ApiLint.Proofs.Entries
import ApiLint.Proofs.Json.DistinctKeys
import ApiLint.Proofs.Descent
import ApiLint.Proofs.Schema.Place
import ApiLint.Proofs.Schema.Coverage
import ApiLint.Proofs.Schema.Lifting
import ApiLint.Proofs.Schema.Resolution
import ApiLint.Proofs.Table
import ApiLint.Proofs.Lint.Isolation
import ApiLint.Proofs.Document.Targets
import ApiLint.Proofs.Rule.Located
import ApiLint.Proofs.Rule.Registry
import ApiLint.Proofs.Lint.Paths
import ApiLint.Proofs.Rule.RequiredPropertyDefined
import ApiLint.Proofs.Schema.Nested
import ApiLint.Proofs.Document.Place
import ApiLint.Proofs.Document.Selection
import ApiLint.Proofs.Rule.Distinct
import ApiLint.Proofs.Lint.Distinct
import ApiLint.Proofs.Document.Containers
import ApiLint.Proofs.Rule.Options
import ApiLint.Proofs.Lint.Failures
import ApiLint.Proofs.FirstSeen
import ApiLint.Proofs.Json.Equality
import ApiLint.Proofs.Schema.Parts
import ApiLint.Proofs.Path.Replace
import ApiLint.Proofs.Schema.Compositional
import ApiLint.Proofs.Rule.SuperfluousAllOf
import ApiLint.Proofs.Lint.Override
import ApiLint.Proofs.Path.Pointer
import ApiLint.Proofs.Rule.UndefinedRequired
import ApiLint.Proofs.Json.Draft
import ApiLint.Proofs.Decode.Results
import ApiLint.Proofs.Yaml.Reading
import ApiLint.Proofs.Ruleset.Reachable
import ApiLint.Proofs.Ruleset.Exchange
import ApiLint.Proofs.Schema.Tail
import ApiLint.Proofs.Rule.OnePlace
import ApiLint.Proofs.Rule.PropertyDescription
import ApiLint.Proofs.Schema.Properties
import ApiLint.Proofs.Rule.PropertyConsistentType
import ApiLint.Proofs.Rule.RefPattern
import ApiLint.Proofs.Binary64
import ApiLint.Proofs.Rule.MinMaxConsistency
import ApiLint.Proofs.Schema.Definitions
import ApiLint.Proofs.Rule.ArrayOfArrays
import ApiLint.Proofs.Schema.Kind
import ApiLint.Proofs.Document.Removal
import ApiLint.Proofs.Rule.RefSiblings
import ApiLint.Proofs.Schema.SingleKind
import ApiLint.Proofs.Schema.Rearrangement
import ApiLint.Proofs.Decode.Findings
