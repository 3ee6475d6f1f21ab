import EndpointRules.EvalError
import EndpointRules.Template.Basic

/-! Rendering templates against bound names. -/

namespace EndpointRules

/-- The text of a value in place of a placeholder; lists and records have none. -/
def Value.stringify (label : Text) : Option Value → Except EvalError Text
  | none => .error (.absentPlaceholder label)
  | some (.string s) => .ok s
  | some (.bool b) => .ok (if b then "true" else "false")
  | some (.int n) => (decimalText n).mapError .breakdown
  | some v => .error (.shapedPlaceholder label v.kindWord)

namespace Template

/-- What a placeholder refers to, given the value of its name. A path was found well formed when
the template was read. -/
def target (v : Option Value) : (path : Option Text) → Except EvalError (Option Value)
  | none => .ok v
  | some path => do
    return AttrPath.follow v ((← (AttrPath.read path).mapError EvalError.breakdown).getD [])

def Part.render (lookup : Text → Except EvalError (Option Value)) :
    Part → Except EvalError Text
  | .text s => .ok s
  | .placeholder name path => do
    Value.stringify (label name path) (← target (← lookup name) path)

/-- The texts of the parts in order; the first error ends the rendering. -/
def renderParts (lookup : Text → Except EvalError (Option Value)) :
    List Part → Except EvalError Text
  | [] => .ok ""
  | part :: rest => do return (← part.render lookup) ++ (← renderParts lookup rest)

def render (t : Template) (lookup : Text → Except EvalError (Option Value)) :
    Except EvalError Text :=
  renderParts lookup t.parts

def constantText (t : Template) : Text :=
  Text.join (t.parts.map fun
    | .text s => s
    | .placeholder _ _ => "")

end Template
end EndpointRules
