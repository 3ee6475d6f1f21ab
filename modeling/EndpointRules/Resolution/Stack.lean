import EndpointRules.Resolution.Walk

/-! The walk through a rule tree on one stack of frames, which all rules share. A frame is entered
before a rule is tried and left however the try ends, be it in an error. -/

namespace EndpointRules

/-- An evaluation of an expression of a rule, as it is about to begin: the position of the rule, its
conditions that have held so far, and the stack. The parts of the expression find the same stack. -/
structure Evaluation where
  position : List Nat
  held : List Condition
  env : Environment
  expr : Expr

/-- The evaluations that have begun, the earliest first, and the stack. -/
structure StackState where
  past : List Evaluation
  env : Environment

inductive StackError where
  | eval (e : EvalError)
  /-- There is no frame to leave but that of the parameters. -/
  | underflow

/-- A step from a stack to an end and the stack there. An error leaves the stack as it is. -/
def OnStack (α : Type) := StackState → Except StackError α × StackState

namespace OnStack
variable {α β : Type}

/-- Goes on with the result from the stack that a step leaves, unless there is an error. -/
def andThen (x : OnStack α) (f : α → OnStack β) : OnStack β := fun st =>
  match x st with
  | (.ok a, after) => f a after
  | (.error e, after) => (.error e, after)

instance : Monad OnStack where
  pure a := fun st => (.ok a, st)
  bind := andThen

def ofExcept (x : Except EvalError α) : OnStack α := fun st => (x.mapError .eval, st)

/-- Notes that an evaluation begins. -/
def begin (position : List Nat) (held : List Condition) (e : Expr) : OnStack Environment :=
  fun st => (.ok st.env, { st with past := st.past ++ [⟨position, held, st.env, e⟩] })

def push : OnStack Unit := fun st => (.ok (), { st with env := st.env.push })

def pop : OnStack Unit := fun st =>
  match st.env.pop? with
  | some env => (.ok (), { st with env := env })
  | none => (.error .underflow, st)

/-- Binds the name that a condition assigns, if any, in the innermost frame. -/
def assign (c : Condition) (v : Option Value) : OnStack Unit :=
  match c.assign with
  | some name => fun st => (.ok (), { st with env := st.env.bind name v })
  | none => pure ()

/-- Takes a step, and another one however the first ends. An error of the other hides the end of the
first. -/
def andFinally (x : OnStack α) (last : OnStack Unit) : OnStack α := fun st =>
  let (outcome, after) := x st
  match last after with
  | (.ok (), done) => (outcome, done)
  | (.error e, done) => (.error e, done)

/-- A step in a frame of its own. -/
def framed (x : OnStack α) : OnStack α := do
  push
  x.andFinally pop

end OnStack

namespace WalkContext
open OnStack

section
variable (ctx : WalkContext) (position : List Nat) (held : List Condition)

def evalOn (e : Expr) : OnStack (Option Value) := do
  let env ← OnStack.begin position held e
  OnStack.ofExcept (e.eval ctx.registry env).outcome

def evalTextOn (context : Text) (e : Expr) : OnStack Text := do
  match ← ctx.evalOn position held e with
  | some (.string s) => return s
  | v => OnStack.ofExcept (.error (.notText context (Value.kindWordOf v)))

def headerValuesOn (context : Text) : List Expr → OnStack (List Text)
  | [] => pure []
  | e :: rest => do
    let s ← ctx.evalTextOn position held context e
    return s :: (← headerValuesOn context rest)

def headersOn (path : Text) :
    List (Text × List Expr) → OnStack (List (Text × List Text))
  | [] => pure []
  | (name, values) :: rest => do
    let texts ← ctx.headerValuesOn position held (path ++ ".endpoint.headers." ++ name) values
    return (name, texts) :: (← headersOn path rest)

def propertiesOn (path : Text) : List (Text × Expr) → OnStack (List (Text × Json))
  | [] => pure []
  | (name, e) :: rest => do
    match ← ctx.evalOn position held e with
    | none => OnStack.ofExcept (.error (.absentProperty (path ++ ".endpoint.properties." ++ name)))
    | some v => return (name, v.toJson) :: (← propertiesOn path rest)

def endpointOn (path : Text) (body : EndpointBody) : OnStack Resolution := do
  let url ← ctx.evalTextOn position held (path ++ ".endpoint.url") body.url
  let headers ← ctx.headersOn position held path body.headers
  let properties ← ctx.propertiesOn position held path body.properties
  return .endpoint url headers properties

def rejectionOn (path : Text) (message : Expr) : OnStack Resolution := do
  return .error (← ctx.evalTextOn position held (path ++ ".error") message)

end

/-- Tests the conditions that follow those that have held, and binds the names they assign. -/
def holdsOn (ctx : WalkContext) (position : List Nat) (held : List Condition) :
    List Condition → OnStack Bool
  | [] => pure true
  | c :: rest => do
    let v ← ctx.evalOn position held c.expr
    if Value.isTruthy v then
      OnStack.assign c v
      holdsOn ctx position (held ++ [c]) rest
    else
      return false

mutual
/-- Tries the rule at a position in the innermost frame. -/
def tryRuleOn (ctx : WalkContext) (position : List Nat) : Rule → OnStack (Option Resolution)
  | .endpoint head body => do
    if ← ctx.holdsOn position [] head.conditions then
      return some (← ctx.endpointOn position head.conditions head.path body)
    else
      return none
  | .error head message => do
    if ← ctx.holdsOn position [] head.conditions then
      return some (← ctx.rejectionOn position head.conditions head.path message)
    else
      return none
  | .tree head rules => do
    if ← ctx.holdsOn position [] head.conditions then
      tryRulesOn ctx position 0 rules
    else
      return none

/-- Tries the rules from an index on that stand right below a position, each in a frame of its
own. -/
def tryRulesOn (ctx : WalkContext) (position : List Nat) (index : Nat) :
    List Rule → OnStack (Option Resolution)
  | [] => pure none
  | rule :: rest => do
    match ← framed (tryRuleOn ctx (position ++ [index]) rule) with
    | some result => return some result
    | none => tryRulesOn ctx position (index + 1) rest
end

/-- Walks through all rules of a rule set on a stack that holds the parameters only. -/
def walkOn (ctx : WalkContext) (frame : Frame) (rules : List Rule) :
    Except StackError (Option Resolution) × StackState :=
  ctx.tryRulesOn [] 0 rules ⟨[], .ofFrame frame⟩

end WalkContext

/-- What a resolution makes of the end of its walk. -/
def Resolution.conclude : Except EvalError (Option Resolution) → Except ResolveError Resolution
  | .ok (some result) => .ok result
  | .ok none => .error .unresolved
  | .error e => .error (.eval e)

end EndpointRules
