import EndpointRules.Text.Classes
import EndpointRules.Text.Split

/-! IP addresses, labels of host names, and bucket names that can be one. -/

namespace EndpointRules.Uri

/-- A decimal number up to 255 without a leading zero. -/
def isOctet (cs : List CodePoint) : Bool :=
  !cs.isEmpty && cs.all CodePoint.isDigit && cs.length ≤ 3 &&
    (cs == [.char '0'] || cs.head? != some (.char '0')) && Text.decimalValue cs ≤ 255

def isIPv4 (cs : List CodePoint) : Bool :=
  let octets := cs.splitOn (.char '.')
  octets.length == 4 && octets.all isOctet

def isHexGroup (cs : List CodePoint) : Bool :=
  !cs.isEmpty && cs.length ≤ 4 && cs.all Text.isHexDigit

/-- Groups on one side of a gap: none at all, or hexadecimal groups only. -/
def isGapSide (groups : List (List CodePoint)) : Bool :=
  groups == [[]] || groups.all isHexGroup

/-- Eight groups, or fewer around one gap. A gap is an empty group inside, beside which an end may
be empty too. -/
def isGroups : List (List CodePoint) → Bool
  | [] => false
  | first :: rest =>
    match rest.span (!·.isEmpty) with
    | (_, []) => (first :: rest).length == 8 && (first :: rest).all isHexGroup
    | (_, [_]) => false
    | (upper, _ :: lower) =>
      isGapSide (first :: upper) && isGapSide lower &&
        ((first :: rest).filter (!·.isEmpty)).length ≤ 7

/-- An IPv4 address in the last place stands for two groups. -/
def withoutIPv4Tail? (groups : List (List CodePoint)) : Option (List (List CodePoint)) :=
  match groups.getLast? with
  | none => some groups
  | some last =>
    if !last.contains '.' then some groups
    else if isIPv4 last then some (groups.dropLast ++ [[.char '0'], [.char '0']])
    else none

/-- An IPv6 address without a zone. -/
def isIPv6Plain (cs : List CodePoint) : Bool :=
  let groups := cs.splitOn (.char ':')
  3 ≤ groups.length &&
    match withoutIPv4Tail? groups with
    | none => false
    | some groups => isGroups groups

/-- An IPv6 address; a zone after a percent sign is not empty and holds no other percent sign. -/
def isIPv6 (cs : List CodePoint) : Bool :=
  !cs.contains '/' &&
    match Text.cutAt? '%' cs with
    | none => isIPv6Plain cs
    | some (address, zone) => !zone.isEmpty && !zone.contains '%' && isIPv6Plain address

def isIpAddress (cs : List CodePoint) : Bool := isIPv4 cs || isIPv6 cs

/-- Up to 63 letters, digits and hyphens, with a letter or digit at either end. -/
def isPlainLabel (cs : List CodePoint) : Bool :=
  cs.length ≤ 63 && (cs.head?.any Text.isAlphanumeric) && (cs.getLast?.any Text.isAlphanumeric) &&
    cs.all fun c => Text.isAlphanumeric c || c == '-'

/-- A label, which one line feed may follow. -/
def isLabel (cs : List CodePoint) : Bool := isPlainLabel (Text.dropFinalNewline cs)

/-- A host label or, where subdomains are allowed, labels between dots. -/
def isHostLabel (allowSubdomains : Bool) (cs : List CodePoint) : Bool :=
  if allowSubdomains then (cs.splitOn (.char '.')).all isLabel else isLabel cs

/-- A bucket name of 3 to 63 characters that can stand in front of a host name: host labels
without upper case that are no IP address. -/
def isHostableBucket (allowSubdomains : Bool) (cs : List CodePoint) : Bool :=
  3 ≤ cs.length && cs.length ≤ 63 && !cs.any CodePoint.isUpper && !isIpAddress cs &&
    isHostLabel allowSubdomains cs

end EndpointRules.Uri
