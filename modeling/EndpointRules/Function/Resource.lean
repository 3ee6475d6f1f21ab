import EndpointRules.Arn
import EndpointRules.Function.Basic
import EndpointRules.Uri.Host
import EndpointRules.Uri.Url

/-! Functions on the names of resources: web addresses, Amazon resource names and buckets. -/

namespace EndpointRules.Function

def parseURL : Function where
  namespaceName := ""
  name := "parseURL"
  params := [.string]
  returns := .record
  body
    | [some s] => do return (Url.parse? (← expectText "parseURL" s)).map Url.toValue
    | _ => .ok none

def parseArn : Function where
  namespaceName := "aws"
  name := "parseArn"
  params := [.string]
  returns := .record
  body
    | [some s] => do return (Arn.parse? (← expectText "aws.parseArn" s)).map Arn.toValue
    | _ => .ok none

/-- Whether a bucket can be addressed by a host name. -/
def isVirtualHostableBucket : Function where
  namespaceName := "aws"
  name := "isVirtualHostableS3Bucket"
  params := [.string, .bool]
  returns := .bool
  body
    | [some s, some allow] => do
      let s ← expectText "aws.isVirtualHostableS3Bucket" s
      let allow ← expectBool "aws.isVirtualHostableS3Bucket" allow
      return some (.bool (Uri.isHostableBucket allow s.toList))
    | _ => .ok none

end EndpointRules.Function
