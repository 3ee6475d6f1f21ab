import EndpointRules.EvalError
import EndpointRules.Expr
import EndpointRules.Value.Basic

/-! Bindings during a resolution: a stack of frames over the frame of the parameters. -/

namespace EndpointRules

/-- The frames above the parameters, the innermost first, and the frame of the parameters. -/
structure Environment where
  inner : List Frame
  parameters : Frame
  deriving Repr

namespace Environment

def ofFrame (parameters : Frame) : Environment := ⟨[], parameters⟩

/-- All frames, the innermost first. -/
def frames (env : Environment) : List Frame := env.inner ++ [env.parameters]

def depth (env : Environment) : Nat := env.inner.length + 1

def push (env : Environment) : Environment := { env with inner := [] :: env.inner }

/-- Takes the innermost frame away; the frame of the parameters stays. -/
def pop? (env : Environment) : Option Environment :=
  match env.inner with
  | [] => none
  | _ :: inner => some { env with inner := inner }

/-- Binds a name in the innermost frame. -/
def bind (env : Environment) (name : Text) (v : Option Value) : Environment :=
  match env.inner with
  | [] => { env with parameters := Fields.put name v env.parameters }
  | frame :: inner => { env with inner := Fields.put name v frame :: inner }

/-- What a name is bound to, in the innermost frame that binds it. -/
def find? (env : Environment) (name : Text) : Option (Option Value) :=
  env.frames.findSome? (Fields.get? name)

def isBound (env : Environment) (name : Text) : Bool := (env.find? name).isSome

@[simp] theorem find?_ofFrame (frame : Frame) (name : Text) :
    (ofFrame frame).find? name = Fields.get? name frame := by
  simp only [find?, frames, ofFrame, List.nil_append, List.findSome?_singleton]

@[simp] theorem find?_push (env : Environment) (name : Text) :
    env.push.find? name = env.find? name := rfl

/-- A binding is found by its name, and all other names are found as before. -/
theorem find?_bind (env : Environment) (name other : Text) (v : Option Value) :
    (env.bind name v).find? other = if name = other then some v else env.find? other := by
  obtain ⟨inner, parameters⟩ := env
  cases inner <;> by_cases h : name = other <;>
    simp [bind, find?, frames, Fields.get?_put, List.findSome?_cons, h]

/-- Leaving a frame undoes entering it. -/
theorem pop?_push (env : Environment) : env.push.pop? = some env := rfl

/-- The value of a name; a name that no frame binds is an error. -/
def lookup (env : Environment) (name : Text) : Except EvalError (Option Value) :=
  match env.find? name with
  | some v => .ok v
  | none => .error (.unbound name)

/-- The value of what a document gives as a name. -/
def lookupName (env : Environment) (name : Name) : Except EvalError (Option Value) :=
  match name with
  | .text s => env.lookup s
  | name => match name.breakdown? with
    | some b => .error (.breakdown b)
    | none => .error (.unbound name.plainText)

/-- The bound names, without repetitions, from the innermost frame outwards. -/
def names (env : Environment) : List Text :=
  (env.frames.flatMap Fields.keys).foldl
    (fun seen name => if seen.contains name then seen else seen ++ [name]) []

def literal (env : Environment) : Text := ("Environment(depth=" ++ toString env.depth ++ ")")

end Environment
end EndpointRules
