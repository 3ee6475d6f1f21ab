import EndpointRules.Uri.Authority
import EndpointRules.Value.Basic

/-! Absolute web addresses and their parts, and the percent encoding of text in them. -/

namespace EndpointRules

namespace Uri

/-- Characters that are never encoded. -/
def isUnreserved (c : CodePoint) : Bool :=
  Text.isAlphanumeric c || c == '-' || c == '_' || c == '.' || c == '~'

def upperHexDigit (n : Nat) : CodePoint :=
  if n < 10 then CodePoint.ofNat (n + 48) else CodePoint.ofNat (n + 55)

/-- One byte as a percent sign and two digits. -/
def encodeByte (byte : UInt8) : List CodePoint :=
  [.char '%', upperHexDigit (byte.toNat / 16), upperHexDigit (byte.toNat % 16)]

/-- An unreserved character stays, and of any other one the UTF-8 bytes are encoded. -/
def encodeChar (c : Char) : List CodePoint :=
  if isUnreserved c then [.char c] else (String.utf8EncodeChar c).flatMap encodeByte

def encodeString (s : String) : Text := .ofList (s.toList.flatMap encodeChar)

/-- A text with its characters encoded. Surrogates have no UTF-8 bytes. -/
def encode (s : Text) : Except Breakdown Text := return encodeString (← s.string)

end Uri

/-- The parts of an `http` or `https` URL. -/
structure Url where
  scheme : Text
  authority : Text
  path : Text
  normalizedPath : Text
  isIp : Bool
  deriving DecidableEq, Repr

namespace Url

/-- Control characters and blanks have no place in a URL. -/
def isForbidden (c : CodePoint) : Bool := c.toNat ≤ 0x20 || c.toNat == 0x7f

def isSchemeChar (c : CodePoint) : Bool := Text.isAlphanumeric c || c == '+' || c == '-' || c == '.'

/-- A scheme in lower case and the text after its colon. -/
def scheme? (cs : List CodePoint) : Option (List CodePoint × List CodePoint) := do
  let (scheme, rest) ← Text.cutAt? ':' cs
  guard (scheme.head?.any CodePoint.isAlpha && scheme.all isSchemeChar)
  return (Text.lowerAscii scheme, rest)

/-- The authority ends before the path, the query or the fragment. -/
def endsAuthority (c : CodePoint) : Bool := c == '/' || c == '?' || c == '#'

/-- A path that starts and ends with a slash. -/
def normalize (path : List CodePoint) : List CodePoint :=
  let path := if path.head? = some (.char '/') then path else .char '/' :: path
  if path.getLast? = some (.char '/') then path else path ++ [.char '/']

/-- The authority names a host that can be reached. -/
def authorityFits (authority : List CodePoint) : Bool :=
  !authority.isEmpty && authority.getLast? != some (.char ':') &&
    Uri.bracketsFit authority && !Uri.hasLookalike authority && Uri.portFits authority &&
    (Uri.isHostName (Uri.host authority) || Uri.isIpAddress (Uri.host authority))

/-- Splits an absolute URL without a query. A fragment is left out of the path. -/
def parse? (text : Text) : Option Url := do
  let cs := text.toList
  guard (!cs.any isForbidden && !cs.contains '?')
  let (scheme, rest) ← scheme? cs
  guard (scheme = Text.toList "http" ∨ scheme = Text.toList "https")
  let (.char '/' :: .char '/' :: rest) := rest | none
  let authority := rest.takeWhile (!endsAuthority ·)
  guard (authorityFits authority)
  let path := (rest.dropWhile (!endsAuthority ·)).takeWhile (· ≠ .char '#')
  return {
    scheme := Text.ofList scheme
    authority := Text.ofList authority
    path := Text.ofList path
    normalizedPath := Text.ofList (normalize path)
    isIp := Uri.isIpAddress (Uri.host authority) }

def toValue (url : Url) : Value :=
  .record [
    ("scheme", .string url.scheme),
    ("authority", .string url.authority),
    ("path", .string url.path),
    ("normalizedPath", .string url.normalizedPath),
    ("isIp", .bool url.isIp)]

end Url
end EndpointRules
