import EndpointRules.Function.Basic
import EndpointRules.Uri.Host
import EndpointRules.Uri.Url

/-! Functions on text. -/

namespace EndpointRules

/-- The characters from `start` up to `stop`, counted from the end when `fromEnd` is set. There
are none unless the text is ASCII and the bounds are ascending and inside of it. -/
def Text.slice? (cs : List CodePoint) (start stop : Int) (fromEnd : Bool) :
    Option (List CodePoint) :=
  if cs.all Text.isAscii ∧ 0 ≤ start ∧ start < stop ∧ stop ≤ cs.length then
    if fromEnd then
      some ((cs.drop (cs.length - stop.toNat)).take (stop.toNat - start.toNat))
    else some ((cs.drop start.toNat).take (stop.toNat - start.toNat))
  else none

namespace Function

def substring : Function where
  namespaceName := ""
  name := "substring"
  params := [.string, .int, .int, .bool]
  returns := .string
  body
    | [some s, some start, some stop, some fromEnd] => do
      let s ← expectText "substring" s
      let start ← expectInt "substring" start
      let stop ← expectInt "substring" stop
      let fromEnd ← expectBool "substring" fromEnd
      return (Text.slice? s.toList start stop fromEnd).map fun cs => .string (Text.ofList cs)
    | _ => .ok none

def uriEncode : Function where
  namespaceName := ""
  name := "uriEncode"
  params := [.string]
  returns := .string
  body
    | [some s] => do
      let s ← expectText "uriEncode" s
      return some (.string (← (Uri.encode s).mapError EvalError.breakdown))
    | _ => .ok none

/-- Whether a text can be a label of a host name. -/
def isValidHostLabel : Function where
  namespaceName := ""
  name := "isValidHostLabel"
  params := [.string, .bool]
  returns := .bool
  body
    | [some s, some allow] => do
      let s ← expectText "isValidHostLabel" s
      let allow ← expectBool "isValidHostLabel" allow
      return some (.bool (Uri.isHostLabel allow s.toList))
    | _ => .ok none

end Function
end EndpointRules
