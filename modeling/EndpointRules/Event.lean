import EndpointRules.Noted
import EndpointRules.Rule

/-! What happens while rule sets are loaded, resolved and tested, and the log lines about it. -/

namespace EndpointRules

/-- Something that happened. -/
inductive Event where
  | loaded (version : Text) (parameters trees : Nat)
  | deprecated (parameter : Text) (since : Option Text) (notice : Text)
  | called (function : Text) (args : List (Option Value))
  | failed (path : Text) (condition : Nat)
  | matched (kind : RuleKind) (path : Text)
  | exhausted (path : Text)
  | evicted (key : Text)
  | mismatched (label mismatch : Text)
  | tested (cases failures : Nat)
  deriving DecidableEq, Repr

/-- How much a log line matters. -/
inductive LogLevel where
  | debug
  | info
  | warning
  deriving DecidableEq, Repr

namespace LogLevel

def text : LogLevel → Text
  | .debug => "DEBUG"
  | .info => "INFO"
  | .warning => "WARNING"

def rank : LogLevel → Nat
  | .debug => 0
  | .info => 1
  | .warning => 2

end LogLevel

/-- A line of the log. -/
structure LogLine where
  level : LogLevel
  source : Text
  message : Text
  deriving DecidableEq, Repr

def LogLine.text (line : LogLine) : Text :=
  line.level.text ++ " " ++ line.source ++ ": " ++ line.message

namespace Event

/-- The log line about an event; calls of recording functions are not logged. -/
def logLine? : Event → Option LogLine
  | .loaded version parameters trees =>
    some ⟨.info, "pyendpoints.loader",
      "Loaded rule set v" ++ version ++ ": " ++ toString parameters ++ " parameters, " ++
        toString trees ++ " tree rules"⟩
  | .deprecated parameter since notice =>
    let since := (since.map fun (s : Text) => " since " ++ s).getD ""
    some ⟨.warning, "pyendpoints.parameters",
      "Parameter " ++ parameter ++ " is deprecated" ++ since ++ ": " ++ notice⟩
  | .called _ _ => none
  | .failed path condition =>
    some ⟨.debug, "pyendpoints.resolver",
      "Rule " ++ path ++ " failed at " ++ Text.indexed "conditions" condition⟩
  | .matched kind path =>
    some ⟨.debug, "pyendpoints.resolver", "Matched " ++ kind.text ++ " rule " ++ path⟩
  | .exhausted path => some ⟨.debug, "pyendpoints.resolver", "Tree rule " ++ path ++ " exhausted"⟩
  | .evicted key =>
    some ⟨.debug, "pyendpoints.cache", "Evicted resolution cache entry " ++ key⟩
  | .mismatched label mismatch =>
    some ⟨.debug, "pyendpoints.testcases", label ++ ": " ++ mismatch⟩
  | .tested cases failures =>
    some ⟨.info, "pyendpoints.testcases",
      "Ran " ++ toString cases ++ " endpoint test cases, " ++ toString failures ++ " failed"⟩

def recorded? : Event → Option (List (Option Value))
  | .called _ args => some args
  | _ => none

end Event

def logLines (events : List Event) : List LogLine := events.filterMap Event.logLine?

abbrev Run (ε α : Type) := Noted Event ε α

end EndpointRules
