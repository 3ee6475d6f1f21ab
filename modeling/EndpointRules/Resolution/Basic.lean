import EndpointRules.Binding
import EndpointRules.EvalError

/-! Results of a resolution, and the errors that end one. -/

namespace EndpointRules

/-- A resolved endpoint, or the message with which a rule rejects the input. -/
inductive Resolution where
  | endpoint (url : Text) (headers : List (Text × List Text))
    (properties : List (Text × Json))
  | error (message : Text)
  deriving Repr

/-- Why a resolution has no result. -/
inductive ResolveError where
  | bind (e : BindError)
  | eval (e : EvalError)
  | unresolved
  | rejected (message : Text)
  deriving DecidableEq, Repr

namespace ResolveError

/-- The class of an error; a breakdown is outside of all classes. -/
def code? : ResolveError → Option ErrorCode
  | .bind (.missing _) => some .missingParameter
  | .bind (.invalid _ _) => some .invalidParameter
  | .bind (.breakdown _) => none
  | .eval e => e.code?
  | .unresolved => some .unresolved
  | .rejected _ => some .endpoint

def message : ResolveError → Text
  | .bind e => e.message
  | .eval e => e.message
  | .unresolved => "Rule engine did not reach an error or endpoint result"
  | .rejected message => message

def parameter? : ResolveError → Option Text
  | .bind e => e.parameter?
  | _ => none

/-- The breakdown that an error is, if it is no error of a known class. -/
def breakdown? : ResolveError → Option Breakdown
  | .bind (.breakdown b) | .eval (.breakdown b) => some b
  | _ => none

/-- The name of the kind of error in reports. -/
def kindName : ResolveError → Text
  | .bind (.missing _) => "MissingParameterError"
  | .bind (.invalid _ _) => "InvalidParameterError"
  | .bind (.breakdown b) | .eval (.breakdown b) => b.kindName
  | .eval _ => "EvalError"
  | .unresolved => "UnresolvedError"
  | .rejected _ => "EndpointResolutionError"

end ResolveError

/-- The resolved endpoint; a rejection is an error. -/
def Resolution.expectEndpoint : Resolution → Except ResolveError Resolution
  | .endpoint url headers properties => .ok (.endpoint url headers properties)
  | .error message => .error (.rejected message)

end EndpointRules
