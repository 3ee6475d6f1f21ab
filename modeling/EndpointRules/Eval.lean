import EndpointRules.Environment
import EndpointRules.Event
import EndpointRules.Function.Registry
import EndpointRules.Template.Render

/-! Evaluation of expressions. Arguments are evaluated eagerly, from left to right. -/

namespace EndpointRules

/-- Applies the function of a name and notes the call of a recording one. -/
def Registry.apply (r : Registry) (name : Name) (args : List (Option Value)) :
    Run EvalError (Option Value) := do
  let f ← Noted.ofExcept (r.getFor name args.length)
  Noted.noteIf f.recording (.called f.qualifiedName args)
  Noted.ofExcept (f.body args)

namespace Expr

def evalTemplate (env : Environment) (t : Template) : Except EvalError Text :=
  if t.isConstant then .ok t.constantText else t.render env.lookup

mutual
/-- The value of an expression, which may be absent. -/
def eval (r : Registry) (env : Environment) : Expr → Run EvalError (Option Value)
  | .bool b => pure (some (.bool b))
  | .int n => pure (some (.int n))
  | .template t => Noted.ofExcept ((evalTemplate env t).map fun s => some (.string s))
  | .list items => do return some (.list (← evalItems r env items))
  | .record fields => do return some (.record (← evalFields r env fields))
  | .ref name => Noted.ofExcept (env.lookupName name)
  | .call f args => do r.apply f (← evalArgs r env args)

/-- The items of a list, none of which may be absent. -/
def evalItems (r : Registry) (env : Environment) : List Expr → Run EvalError (List Value)
  | [] => pure []
  | e :: rest => do
    match ← e.eval r env with
    | none => throw .absentElement
    | some v => return v :: (← evalItems r env rest)

/-- The fields of a record; absent ones are left out. -/
def evalFields (r : Registry) (env : Environment) :
    List (Text × Expr) → Run EvalError (List (Text × Value))
  | [] => pure []
  | (name, e) :: rest => do
    let v ← e.eval r env
    let others ← evalFields r env rest
    match v with
    | none => return others
    | some v => return (name, v) :: others

/-- The arguments of a call, absent ones included. -/
def evalArgs (r : Registry) (env : Environment) :
    List Expr → Run EvalError (List (Option Value))
  | [] => pure []
  | e :: rest => do
    let v ← e.eval r env
    return v :: (← evalArgs r env rest)
end

/-- The value of an expression that has to be text; `context` names its place. -/
def evalText (r : Registry) (env : Environment) (context : Text) (e : Expr) :
    Run EvalError Text := do
  match ← e.eval r env with
  | some (.string s) => return s
  | v => throw (.notText context (Value.kindWordOf v))

end Expr
end EndpointRules
