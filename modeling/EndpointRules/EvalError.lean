import EndpointRules.Breakdown
import EndpointRules.Text.Literal

/-! What can go wrong while an expression is checked or evaluated. -/

namespace EndpointRules

/-- The classes of errors that callers can tell apart. -/
inductive ErrorCode where
  | schema
  | missingParameter
  | invalidParameter
  | evaluation
  | type
  | arity
  | unknownFunction
  | unboundIdentifier
  | template
  | unresolved
  | endpoint
  deriving DecidableEq, Repr

def ErrorCode.text : ErrorCode → Text
  | .schema => "SchemaError"
  | .missingParameter => "MissingParameter"
  | .invalidParameter => "InvalidParameter"
  | .evaluation => "EvalError"
  | .type => "TypeError"
  | .arity => "ArityError"
  | .unknownFunction => "UnknownFunction"
  | .unboundIdentifier => "UnboundIdentifier"
  | .template => "TemplateError"
  | .unresolved => "Unresolved"
  | .endpoint => "EndpointError"

/-- Causes of a failed evaluation. -/
inductive EvalError where
  | malformedPath (path : Text)
  | absentElement
  | notText (context got : Text)
  | absentProperty (context : Text)
  | typeMismatch (expected got context : Text)
  | arity (expected got : Nat) (name : Text)
  | unknownFunction (name : Text)
  | unbound (name : Text)
  | absentPlaceholder (label : Text)
  | shapedPlaceholder (label kind : Text)
  | breakdown (b : Breakdown)
  deriving DecidableEq, Repr

namespace EvalError

/-- The class of an error; a breakdown is outside of all classes. -/
def code? : EvalError → Option ErrorCode
  | .malformedPath _ | .absentElement | .notText _ _ | .absentProperty _ => some .evaluation
  | .typeMismatch _ _ _ => some .type
  | .arity _ _ _ => some .arity
  | .unknownFunction _ => some .unknownFunction
  | .unbound _ => some .unboundIdentifier
  | .absentPlaceholder _ | .shapedPlaceholder _ _ => some .template
  | .breakdown _ => none

def message : EvalError → Text
  | .malformedPath path => "getAttr: malformed path " ++ Text.quoted path
  | .absentElement => "List literal element evaluated to no value"
  | .notText context got => context ++ " must evaluate to a string, got " ++ got
  | .absentProperty context => context ++ " evaluated to no value"
  | .typeMismatch expected got context =>
    "Type error (" ++ context ++ "): expected " ++ expected ++ ", got " ++ got
  | .arity expected got name =>
    "Arity error: " ++ name ++ " expects " ++ toString expected ++ " arguments, got " ++
      toString got
  | .unknownFunction name => "Unknown function: " ++ name
  | .unbound name => "Unbound identifier: " ++ name
  | .absentPlaceholder label => "Template placeholder \x7b" ++ label ++ "\x7d has no value"
  | .shapedPlaceholder label kind =>
    "Template placeholder \x7b" ++ label ++ "\x7d is a " ++ kind ++
      " and has no string representation"
  | .breakdown b => b.message

end EvalError
end EndpointRules
