import EndpointRules.Text.Split
import EndpointRules.Value.Basic

/-! Amazon resource names. -/

namespace EndpointRules

/-- The parts of a resource name; `resource` holds the pieces of the resource itself. -/
structure Arn where
  partition : Text
  service : Text
  region : Text
  accountId : Text
  resource : List Text
  deriving DecidableEq, Repr

namespace Arn

/-- Colons and slashes separate the pieces of a resource. -/
def isResourceSeparator (c : CodePoint) : Bool := c == ':' || c == '/'

/-- Reads `arn:partition:service:region:account:resource`. Partition, service and resource must
not be empty. -/
def parse? (text : Text) : Option Arn :=
  match Text.splitFirst ':' 5 text.toList with
  | [start, partition, service, region, account, resource] =>
    if start = Text.toList "arn" ∧ partition ≠ [] ∧ service ≠ [] ∧ resource ≠ [] then
      some {
        partition := Text.ofList partition
        service := Text.ofList service
        region := Text.ofList region
        accountId := Text.ofList account
        resource := (resource.splitOnP isResourceSeparator).map Text.ofList }
    else none
  | _ => none

def toValue (arn : Arn) : Value :=
  .record [
    ("partition", .string arn.partition),
    ("service", .string arn.service),
    ("region", .string arn.region),
    ("accountId", .string arn.accountId),
    ("resourceId", .list (arn.resource.map .string))]

end Arn
end EndpointRules
