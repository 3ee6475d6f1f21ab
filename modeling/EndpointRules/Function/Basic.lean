import EndpointRules.EvalError
import EndpointRules.Ty
import EndpointRules.Value.Basic

/-! Functions that rules may call, and how they look at their arguments. -/

namespace EndpointRules

/-- A function of the rule language. Its body is only applied to as many arguments as there are
parameters. Calls of a `recording` function are noted when they are made. -/
structure Function where
  namespaceName : Text
  name : Text
  params : List Ty
  returns : Ty
  body : List (Option Value) → Except EvalError (Option Value)
  recording : Bool := false

namespace Function

/-- The name as written in a rule set. -/
def qualifiedName (f : Function) : Text :=
  if f.namespaceName = "" then f.name else f.namespaceName ++ "." ++ f.name

def signature (f : Function) : Text :=
  let params := Text.intercalate ", " (f.params.map Ty.text)
  ("Function(" ++ f.qualifiedName ++ ", (" ++ params ++ ") -> " ++ f.returns.text ++ ")")

/-- The text that an argument of the function `name` has to be. -/
def expectText (name : Text) : Value → Except EvalError Text
  | .string s => .ok s
  | v => .error (.typeMismatch "string" v.kindWord name)

/-- The truth value that an argument of the function `name` has to be. -/
def expectBool (name : Text) : Value → Except EvalError Bool
  | .bool b => .ok b
  | v => .error (.typeMismatch "bool" v.kindWord name)

/-- The whole number that an argument of the function `name` has to be. -/
def expectInt (name : Text) : Value → Except EvalError Int
  | .int n => .ok n
  | v => .error (.typeMismatch "int" v.kindWord name)

end Function
end EndpointRules
