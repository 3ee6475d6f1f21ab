import EndpointRules.Argument
import EndpointRules.Event
import EndpointRules.Parameter

/-! Binding of parameters. A supplied value comes first, then a configured built-in, then the
declared default. -/

namespace EndpointRules

/-- Why a supplied or configured datum is refused. -/
inductive InvalidReason where
  | undeclared
  | conversion (e : Argument.ConversionError)
  | mistyped (expected : ParameterType) (got : Text)
  deriving DecidableEq, Repr

def InvalidReason.message : InvalidReason → Text
  | .undeclared => "not declared by the rule set"
  | .conversion e => e.message
  | .mistyped expected got => "expected " ++ expected.text ++ ", got " ++ got

/-- Why parameters cannot be bound. Text for a datum may break down. -/
inductive BindError where
  | missing (name : Text)
  | invalid (name : Text) (reason : InvalidReason)
  | breakdown (b : Breakdown)
  deriving DecidableEq, Repr

namespace BindError

def message : BindError → Text
  | .missing name => "Parameter '" ++ name ++ "' must not be null"
  | .invalid name reason => "Invalid parameter '" ++ name ++ "': " ++ reason.message
  | .breakdown b => b.message

/-- The parameter that an error is about. -/
def parameter? : BindError → Option Text
  | .missing name | .invalid name _ => some name
  | .breakdown _ => none

end BindError

/-- Changes a datum that has not been converted before. An entity is replaced by the text of its
identifier, if it has one; texts, truth values and lists stay as they are. -/
def Coercion.apply : Coercion → Argument → Except Breakdown Argument
  | .id, .entity look identity =>
    match look.refusal? with
    | some b => .error b
    | none =>
      if identity.isNull then .ok (.entity look identity) else identity.shownPlain.map .str
  | .id, x => .ok x
  | .string, .str s => .ok (.str s)
  | .string, .bool b => .ok (.bool b)
  | .string, .arr items => .ok (.arr items)
  | .string, .value v => .ok (.value v)
  | .string, x => x.shownPlain.map .str

namespace Parameter

/-- A datum given for a parameter, after the coercion of the parameter. -/
def coerced (p : Parameter) (x : Argument) : Except Breakdown Argument :=
  match p.coercion? with
  | some c => c.apply x
  | none => .ok x

/-- The value of a datum given for a parameter. -/
def convert (p : Parameter) (x : Argument) : Except BindError (Option Value) :=
  if x.isNull then .ok none
  else do
    let x ← (p.coerced x).mapError .breakdown
    match x.toValue with
    | .error e => throw (.invalid p.name (.conversion e))
    | .ok none => return none
    | .ok (some v) =>
      if p.type.accepts v then return some v
      else throw (.invalid p.name (.mistyped p.type v.kindWord))

/-- The datum that a caller supplies for a parameter, null if there is none. -/
def supplied (p : Parameter) (arguments : List (Text × Argument)) : Argument :=
  (Fields.get? p.name arguments).getD .null

/-- The datum configured for the built-in of a parameter. -/
def configured (p : Parameter) (builtIns : List (Text × Argument)) : Argument :=
  (p.builtIn.bind fun id => Fields.get? id builtIns).getD .null

def given (p : Parameter) (arguments builtIns : List (Text × Argument)) : Argument :=
  if (p.supplied arguments).isNull then p.configured builtIns else p.supplied arguments

/-- The note about a deprecated parameter that is supplied. -/
def deprecationNotes (p : Parameter) (arguments : List (Text × Argument)) : List Event :=
  match p.deprecated with
  | some d =>
    if (p.supplied arguments).isNull then []
    else
      [.deprecated p.name (d.since.filter (!·.isEmpty))
        ((d.message.filter (!·.isEmpty)).getD "deprecated")]
  | none => []

def bind (p : Parameter) (arguments builtIns : List (Text × Argument)) :
    Except BindError (Option Value) := do
  let v ← p.convert (p.given arguments builtIns)
  let v := v.or p.default
  if v.isNone && p.required then throw (.missing p.name)
  return v

end Parameter

def undeclared? (parameters : List Parameter) (arguments : List (Text × Argument)) :
    Option Text :=
  (Fields.keys arguments).find? fun name => !parameters.any fun p => p.name = name

/-- Binds parameters in the order of their declaration. -/
def bindAll (arguments builtIns : List (Text × Argument)) : List Parameter → Run BindError Frame
  | [] => pure []
  | p :: rest => do
    let v ← (⟨p.deprecationNotes arguments, p.bind arguments builtIns⟩ : Run _ _)
    return (p.name, v) :: (← bindAll arguments builtIns rest)

/-- The frame of all declared parameters. Names that are not declared may be refused. -/
def bindParameters (parameters : List Parameter) (arguments builtIns : List (Text × Argument))
    (rejectUnknown : Bool) : Run BindError Frame :=
  match undeclared? parameters arguments with
  | some name =>
    if rejectUnknown then throw (.invalid name .undeclared)
    else bindAll arguments builtIns parameters
  | none => bindAll arguments builtIns parameters

end EndpointRules
