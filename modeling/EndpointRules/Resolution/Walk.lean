import EndpointRules.Eval
import EndpointRules.Resolution.Basic

/-! The walk through a rule tree. The rules of a tree are tried in order, each in a frame of its
own, and the first endpoint or error that is reached ends the walk. -/

namespace EndpointRules

/-- What a walk goes by: the functions, and whether visits to rules are noted. -/
structure WalkContext where
  registry : Registry
  trace : Bool

namespace WalkContext

def visit (ctx : WalkContext) (event : Event) : Run EvalError Unit := Noted.noteIf ctx.trace event

/-- The environment after the conditions of a rule, unless one of them fails. -/
def holds? (ctx : WalkContext) (path : Text) (env : Environment) (index : Nat) :
    List Condition → Run EvalError (Option Environment)
  | [] => pure (some env)
  | c :: rest => do
    let v ← c.expr.eval ctx.registry env
    if Value.isTruthy v then
      let env := match c.assign with
        | some name => env.bind name v
        | none => env
      holds? ctx path env (index + 1) rest
    else
      ctx.visit (.failed path index)
      return none

def headerValues (ctx : WalkContext) (env : Environment) (context : Text) :
    List Expr → Run EvalError (List Text)
  | [] => pure []
  | e :: rest => do
    let s ← e.evalText ctx.registry env context
    return s :: (← headerValues ctx env context rest)

def headers (ctx : WalkContext) (env : Environment) (path : Text) :
    List (Text × List Expr) → Run EvalError (List (Text × List Text))
  | [] => pure []
  | (name, values) :: rest => do
    let texts ← headerValues ctx env (path ++ ".endpoint.headers." ++ name) values
    return (name, texts) :: (← headers ctx env path rest)

/-- The properties of an endpoint, none of which may be absent. -/
def properties (ctx : WalkContext) (env : Environment) (path : Text) :
    List (Text × Expr) → Run EvalError (List (Text × Json))
  | [] => pure []
  | (name, e) :: rest => do
    match ← e.eval ctx.registry env with
    | none => throw (.absentProperty (path ++ ".endpoint.properties." ++ name))
    | some v => return (name, v.toJson) :: (← properties ctx env path rest)

/-- The endpoint that a rule gives: first its URL, then headers and properties. -/
def endpoint (ctx : WalkContext) (env : Environment) (path : Text) (body : EndpointBody) :
    Run EvalError Resolution := do
  let url ← body.url.evalText ctx.registry env (path ++ ".endpoint.url")
  let headers ← ctx.headers env path body.headers
  let properties ← ctx.properties env path body.properties
  return .endpoint url headers properties

def rejection (ctx : WalkContext) (env : Environment) (path : Text) (message : Expr) :
    Run EvalError Resolution := do
  return .error (← message.evalText ctx.registry env (path ++ ".error"))

mutual
/-- Tries a rule: without a result if a condition fails or no rule below it gives one. -/
def tryRule (ctx : WalkContext) (env : Environment) : Rule → Run EvalError (Option Resolution)
  | .endpoint head body => do
    match ← ctx.holds? head.path env 0 head.conditions with
    | none => return none
    | some env =>
      ctx.visit (.matched .endpoint head.path)
      return some (← ctx.endpoint env head.path body)
  | .error head message => do
    match ← ctx.holds? head.path env 0 head.conditions with
    | none => return none
    | some env =>
      ctx.visit (.matched .error head.path)
      return some (← ctx.rejection env head.path message)
  | .tree head rules => do
    match ← ctx.holds? head.path env 0 head.conditions with
    | none => return none
    | some env =>
      ctx.visit (.matched .tree head.path)
      match ← tryRules ctx env rules with
      | some result => return some result
      | none =>
        ctx.visit (.exhausted head.path)
        return none

/-- Tries rules in order, each in a fresh frame. -/
def tryRules (ctx : WalkContext) (env : Environment) :
    List Rule → Run EvalError (Option Resolution)
  | [] => pure none
  | rule :: rest => do
    match ← tryRule ctx env.push rule with
    | some result => return some result
    | none => tryRules ctx env rest
end

/-- Walks through all rules of a rule set. The root is neither tested nor reported as matched. -/
def walk (ctx : WalkContext) (frame : Frame) (rules : List Rule) : Run ResolveError Resolution :=
  (do
    match ← (ctx.tryRules (.ofFrame frame) rules).mapError ResolveError.eval with
    | some result => return result
    | none =>
      (ctx.visit (.exhausted Rule.rootPath)).mapError ResolveError.eval
      throw .unresolved)

end WalkContext
end EndpointRules
