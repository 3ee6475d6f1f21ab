import EndpointRules.Breakdown
import EndpointRules.Uri.Host

/-! The authority of a URL: who is logged in, the host and the port. -/

namespace EndpointRules.Uri

/-- Characters whose compatibility form holds one of the delimiters of a URL. -/
def delimiterLookalikes : List Nat := [
  0x2047, 0x2048, 0x2049, 0x2100, 0x2101, 0x2105, 0x2106, 0x2a74, 0xfe13, 0xfe16, 0xfe55, 0xfe56,
  0xfe5f, 0xfe6b, 0xff03, 0xff0f, 0xff1a, 0xff1f, 0xff20]

def hasLookalike (cs : List CodePoint) : Bool :=
  cs.any fun c => delimiterLookalikes.contains c.toNat

/-- An address of a future version: `v`, a hexadecimal version, a dot and some text. -/
def isFutureAddress : List CodePoint → Bool
  | .char 'v' :: rest =>
    match rest.span Text.isHexDigit with
    | (_ :: _, .char '.' :: _ :: _) => true
    | _ => false
  | _ => false

/-- What may stand for a host where brackets are used: a future address or an IPv6 address. -/
def isBracketHost (cs : List CodePoint) : Bool :=
  match cs with
  | .char 'v' :: _ => isFutureAddress cs
  | _ => !isIPv4 cs && isIPv6 cs

/-- The text before a character, and the text after it; without the character nothing is after. -/
def partition (separator : CodePoint) (cs : List CodePoint) : List CodePoint × List CodePoint :=
  (Text.cutAt? separator cs).getD (cs, [])

/-- Brackets come in pairs and enclose the host, and after them only a port may follow. -/
def bracketsFit (authority : List CodePoint) : Bool :=
  match authority.contains '[', authority.contains ']' with
  | false, false => true
  | true, true =>
    let hostAndPort := Text.afterLast '@' authority
    match Text.cutAt? '[' hostAndPort with
    | some (before, bracketed) =>
      let (host, port) := partition ']' bracketed
      before.isEmpty && (port.isEmpty || port.head? == some (.char ':')) && isBracketHost host
    | none => isBracketHost (partition ':' hostAndPort).1
  | _, _ => false

/-- Host and port as they are written; a host in brackets is taken out of them. -/
def hostAndPort (authority : List CodePoint) : List CodePoint × List CodePoint :=
  let written := Text.afterLast '@' authority
  match Text.cutAt? '[' written with
  | some (_, bracketed) =>
    let (host, rest) := partition ']' bracketed
    (host, (partition ':' rest).2)
  | none => partition ':' written

/-- Lower case for a host: the ASCII letters and the Kelvin sign. All other letters leave ASCII
and with it every form of host. -/
def lowerHostChar (c : CodePoint) : CodePoint :=
  if c.toNat = 0x212a then 'k' else c.toLower

/-- The host in lower case, except for the zone after a percent sign. -/
def host (authority : List CodePoint) : List CodePoint :=
  let written := (hostAndPort authority).1
  (written.takeWhile (· ≠ .char '%')).map lowerHostChar ++ written.dropWhile (· ≠ .char '%')

/-- A port is left out or a decimal number below 65536 that is not too long to be read. -/
def portFits (authority : List CodePoint) : Bool :=
  let port := (hostAndPort authority).2
  port.all CodePoint.isDigit && port.length ≤ digitLimit && Text.decimalValue port ≤ 65535

/-- A host name starts and ends with a letter or digit; dots, hyphens and underscores stand
between. -/
def isHostName (cs : List CodePoint) : Bool :=
  match cs with
  | [] => false
  | c :: _ =>
    Text.isAlphanumeric c && (cs.getLast?.any Text.isAlphanumeric) &&
      cs.all fun c => Text.isAlphanumeric c || c == '.' || c == '_' || c == '-'

end EndpointRules.Uri
