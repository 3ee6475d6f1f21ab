import EndpointRules.AttrPath
import EndpointRules.Function.Basic

/-! Functions on values of any kind: presence, negation, equality and attributes. An absent
argument makes the answer of most functions absent. -/

namespace EndpointRules.Function

def isSet : Function where
  namespaceName := ""
  name := "isSet"
  params := [.any]
  returns := .bool
  body
    | [v] => .ok (some (.bool v.isSome))
    | _ => .ok none

def not : Function where
  namespaceName := ""
  name := "not"
  params := [.bool]
  returns := .bool
  body
    | [some v] => do return some (.bool (!(← expectBool "not" v)))
    | _ => .ok none

/-- Equality of truth values; on other kinds there is no answer. -/
def booleanEquals : Function where
  namespaceName := ""
  name := "booleanEquals"
  params := [.bool, .bool]
  returns := .bool
  body
    | [some (.bool a), some (.bool b)] => .ok (some (.bool (a == b)))
    | _ => .ok none

/-- Equality of texts; on other kinds there is no answer. -/
def stringEquals : Function where
  namespaceName := ""
  name := "stringEquals"
  params := [.string, .string]
  returns := .bool
  body
    | [some (.string a), some (.string b)] => .ok (some (.bool (a == b)))
    | _ => .ok none

/-- What a path leads to; a malformed path is an error. -/
def getAttr : Function where
  namespaceName := ""
  name := "getAttr"
  params := [.any, .string]
  returns := .any
  body
    | [some target, some path] => do
      let path ← expectText "getAttr" path
      match ← (AttrPath.read path).mapError EvalError.breakdown with
      | none => throw (.malformedPath path)
      | some steps => return AttrPath.follow (some target) steps
    | _ => .ok none

/-- Notes its argument and is true. -/
def probe (namespaceName name : Text) : Function where
  namespaceName := namespaceName
  name := name
  params := [.any]
  returns := .bool
  body _ := .ok (some (.bool true))
  recording := true

end EndpointRules.Function
