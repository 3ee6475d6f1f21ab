import EndpointRules.Main
import EndpointRules.Proofs.Findings
import EndpointRules.Proofs.Scope.Fits
import EndpointRules.Proofs.Typing.Values
import EndpointRules.Proofs.Document.Regular
import EndpointRules.Proofs.Outcome
import EndpointRules.Proofs.Document.Loaded
import EndpointRules.Proofs.Resolution.Steps
import EndpointRules.Proofs.Resolution.Visits
import EndpointRules.Proofs.Typing.Soundness
import EndpointRules.Proofs.Binding
import EndpointRules.Proofs.Resolution.Safety
import EndpointRules.Proofs.Resolution.Agreement
import EndpointRules.Proofs.Document.Paths
import EndpointRules.Proofs.Resolution.Flattening
import EndpointRules.Proofs.Scope.Dependence
import EndpointRules.Cache.Resolver
import EndpointRules.Proofs.Cache.Recency
import EndpointRules.Proofs.Cache.Keys
import EndpointRules.Proofs.Cache.Transparency
import EndpointRules.Proofs.Cache.Records
import EndpointRules.Proofs.Document.Buildable
import EndpointRules.Proofs.Document.Loading
import EndpointRules.Proofs.Scope.Lexical
import EndpointRules.Proofs.Template.Printing
import EndpointRules.Proofs.Scope.Table
import EndpointRules.Proofs.Resolution.Stack
import EndpointRules.Proofs.Scope.Runtime
import EndpointRules.Proofs.Resolution.Literal
import EndpointRules.Proofs.Document.Independence
import EndpointRules.Proofs.Resolution.Course
import EndpointRules.Proofs.Resolution.Notes
import EndpointRules.Proofs.Resolution.Tracing
import EndpointRules.Proofs.Resolution.Calls
import EndpointRules.Proofs.Cache.Probing
import EndpointRules.Proofs.Document.Distinct
import EndpointRules.Proofs.Resolution.Distinct
import EndpointRules.Proofs.TestCase.Parsing
import EndpointRules.Proofs.TestCase.Running
import EndpointRules.Proofs.Fields
import EndpointRules.Proofs.Cache.Canonical
import EndpointRules.Proofs.Binding.Stability
import EndpointRules.Proofs.Uri.Splitting
import EndpointRules.Proofs.Document.Validity
import EndpointRules.Proofs.Document.LiteralPaths
import EndpointRules.Proofs.Text.Pieces
import EndpointRules.Proofs.Uri.HostLabels
import EndpointRules.Proofs.Arn
import EndpointRules.Proofs.Uri.Encoding
import EndpointRules.Proofs.Json.Closing
import EndpointRules.Proofs.Document.Repeats
import EndpointRules.Proofs.AttrPath
import EndpointRules.Proofs.Text.Slices
import EndpointRules.Proofs.Template.Meaning
import EndpointRules.Proofs.Conversion
import EndpointRules.Proofs.CommandLine.Assignments
