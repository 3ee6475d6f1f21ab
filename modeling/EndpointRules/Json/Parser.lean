import EndpointRules.Json.Basic
import EndpointRules.Text.Classes

/-! Reading JSON text. A fault is located by the text that is left where it is found. -/

namespace EndpointRules.Json

/-- What a text was found not to be. -/
inductive Reason where
  | value
  | propertyName
  | colon
  | comma
  | extraData
  | unterminatedString
  | controlCharacter
  | escape
  | codeEscape
  | byteOrderMark
  deriving DecidableEq, Repr

def Reason.message : Reason → Text
  | .value => "Expecting value"
  | .propertyName => "Expecting property name enclosed in double quotes"
  | .colon => "Expecting ':' delimiter"
  | .comma => "Expecting ',' delimiter"
  | .extraData => "Extra data"
  | .unterminatedString => "Unterminated string starting at"
  | .controlCharacter => "Invalid control character at"
  | .escape => "Invalid \\escape"
  | .codeEscape => "Invalid \\uXXXX escape"
  | .byteOrderMark => "Unexpected UTF-8 BOM (decode using utf-8-sig)"

/-- A fault in a text, with the rest of the text from the place where it is reported. -/
structure Fault where
  reason : Reason
  rest : List CodePoint
  deriving DecidableEq, Repr

/-- Reading ends early at a fault, at a whole number with too many digits, or because an object was
refused when it was closed. -/
inductive Failure (ε : Type) where
  | fault (fault : Fault)
  | refused (cause : ε)
  | breakdown (b : Breakdown)
  deriving DecidableEq, Repr

/-- A line feed ends a line; lines and columns count from one. -/
def Fault.message (text : List CodePoint) (fault : Fault) : Text :=
  let index := text.length - fault.rest.length
  let before := text.take index
  let line := before.count (.char '\n') + 1
  let column := (before.reverse.takeWhile (· ≠ .char '\n')).length + 1
  fault.reason.message ++ ": line " ++ toString line ++ " column " ++ toString column ++
    " (char " ++ toString index ++ ")"

namespace Parser

/-- The blanks between the tokens of a JSON text. -/
def isSpace (c : CodePoint) : Bool := c == ' ' || c == '\t' || c == '\n' || c == '\r'

def skipSpace (cs : List CodePoint) : List CodePoint := cs.dropWhile isSpace

/-- What an escape of a single letter stands for. -/
def shortEscapes : List (Char × Char) := [
  ('"', '"'), ('\\', '\\'), ('/', '/'), ('b', '\x08'), ('f', '\x0c'), ('n', '\n'), ('r', '\r'),
  ('t', '\t')]

def shortEscape? (c : CodePoint) : Option CodePoint :=
  (shortEscapes.find? fun entry => c = entry.1).map fun entry => .char entry.2

/-- What a string is made of: a code point by itself, or the number in a code escape. -/
inductive StringUnit where
  | plain (c : CodePoint)
  | code (n : Nat)
  deriving DecidableEq, Repr

mutual
/-- The units up to the closing quote, and the text after it. The text from the opening quote on is
`start`. -/
def stringUnits (start : List CodePoint) :
    List CodePoint → Except Fault (List StringUnit × List CodePoint)
  | [] => .error ⟨.unterminatedString, start⟩
  | c :: rest =>
    if c = '"' then .ok ([], rest)
    else if c = '\\' then escapedUnits start (c :: rest) rest
    else if c.toNat ≤ 0x1f then .error ⟨.controlCharacter, c :: rest⟩
    else do
      let (units, after) ← stringUnits start rest
      return (.plain c :: units, after)

/-- Goes on after a backslash; the text from the backslash on is `place`. -/
def escapedUnits (start place : List CodePoint) :
    List CodePoint → Except Fault (List StringUnit × List CodePoint)
  | [] => .error ⟨.unterminatedString, start⟩
  | c :: rest =>
    if c = 'u' then codeUnits start (c :: rest) 4 0 rest
    else match shortEscape? c with
      | none => .error ⟨.escape, place⟩
      | some e => do
        let (units, after) ← stringUnits start rest
        return (.plain e :: units, after)

/-- Goes on inside a code escape of which `missing` digits are still to come. Some text has to
follow the last digit. -/
def codeUnits (start place : List CodePoint) (missing value : Nat) :
    List CodePoint → Except Fault (List StringUnit × List CodePoint)
  | [] => .error ⟨.codeEscape, place⟩
  | c :: rest =>
    match Text.hexValue? c with
    | none => .error ⟨.codeEscape, place⟩
    | some digit =>
      if missing ≤ 1 then
        if rest.isEmpty then .error ⟨.codeEscape, place⟩
        else do
          let (units, after) ← stringUnits start rest
          return (.code (16 * value + digit) :: units, after)
      else codeUnits start place (missing - 1) (16 * value + digit) rest
end

def isHighSurrogate (n : Nat) : Bool := 0xd800 ≤ n && n < 0xdc00

def isLowSurrogate (n : Nat) : Bool := 0xdc00 ≤ n && n < 0xe000

/-- The code points of units. A pair of surrogates in neighbouring escapes is joined; any other
surrogate stands for itself. -/
def codePoints : List StringUnit → List CodePoint
  | .code high :: .code low :: rest =>
    if isHighSurrogate high && isLowSurrogate low then
      .ofNat (0x10000 + (high - 0xd800) * 0x400 + (low - 0xdc00)) :: codePoints rest
    else .ofNat high :: codePoints (.code low :: rest)
  | .code n :: rest => .ofNat n :: codePoints rest
  | .plain c :: rest => c :: codePoints rest
  | [] => []

/-- The string after an opening quote, and the text after its closing quote. -/
def string (afterQuote : List CodePoint) : Except Fault (Text × List CodePoint) :=
  (stringUnits (.char '"' :: afterQuote) afterQuote).map fun (units, after) =>
    (Text.ofList (codePoints units), after)

/-- The whole part of a number: a lone zero, or digits that do not start with zero. -/
def wholePart? : List CodePoint → Option (List CodePoint × List CodePoint)
  | .char '0' :: rest => some ([.char '0'], rest)
  | c :: rest => if c.isDigit then some ((c :: rest).span CodePoint.isDigit) else none
  | [] => none

/-- The digits after a decimal point; without any, the point is left alone. -/
def fractionPart : List CodePoint → List CodePoint × List CodePoint
  | .char '.' :: rest =>
    match rest.span CodePoint.isDigit with
    | ([], _) => ([], .char '.' :: rest)
    | part => part
  | cs => ([], cs)

/-- The exponent of a number; without digits, its letter is left alone. -/
def exponentPart? : List CodePoint → Option (Int × List CodePoint)
  | c :: rest =>
    if c = 'e' ∨ c = 'E' then
      let (negative, rest) := match rest with
        | .char '-' :: rest => (true, rest)
        | .char '+' :: rest => (false, rest)
        | rest => (false, rest)
      match rest.span CodePoint.isDigit with
      | ([], _) => none
      | (digits, after) =>
        let magnitude : Int := Text.decimalValue digits
        some (if negative then -magnitude else magnitude, after)
    else none
  | [] => none

/-- The numeral that some decimal digits make. -/
def numeral (digits : List CodePoint) : Numeral := ⟨digits.length, Text.decimalValue digits⟩

/-- A number without its sign. A fraction or an exponent makes it a float; a whole number may have
too many digits to be read. -/
def magnitude? (negative : Bool) (cs : List CodePoint) :
    Option (Except Breakdown Json × List CodePoint) := do
  let (whole, rest) ← wholePart? cs
  let (fraction, rest) := fractionPart rest
  match fraction, exponentPart? rest with
  | [], none =>
    let signed := fun (n : Nat) => Json.int (if negative then -n else n)
    return ((numeral whole).read.map signed, rest)
  | _, exponent? =>
    let (exponent, rest) := exponent?.getD (0, rest)
    let digits := Text.decimalValue (whole ++ fraction)
    return (.ok (.float (.ofDecimal negative digits (exponent - fraction.length))), rest)

def number? : List CodePoint → Option (Except Breakdown Json × List CodePoint)
  | .char '-' :: rest => magnitude? true rest
  | cs => magnitude? false cs

/-- The rest of a text after a word at its start. -/
def afterWord? : (word : List CodePoint) → List CodePoint → Option (List CodePoint)
  | [], cs => some cs
  | w :: word, c :: cs => if w = c then afterWord? word cs else none
  | _ :: _, [] => none

def constants : List (Text × Json) := [
  ("null", .null), ("true", .bool true), ("false", .bool false), ("NaN", .float .nan),
  ("Infinity", .float (.infinite false)), ("-Infinity", .float (.infinite true))]

def scalar? (cs : List CodePoint) : Option (Except Breakdown Json × List CodePoint) :=
  (constants.findSome? fun (word, datum) => (afterWord? word.toList cs).map (.ok datum, ·)).or
    (number? cs)

variable {ε : Type} (close : List (Text × Json) → Except ε (List (Text × Json)))

mutual
/-- Reads one datum. Each object passes through `close` when its end is met, inner objects first. -/
def datum : (fuel : Nat) → List CodePoint → Except (Failure ε) (Json × List CodePoint)
  | 0, cs => .error (.fault ⟨.value, cs⟩)
  | fuel + 1, cs =>
    match cs with
    | .char '"' :: rest => (string rest).map (fun (s, after) => (.str s, after)) |>.mapError .fault
    | .char '[' :: rest =>
      match skipSpace rest with
      | .char ']' :: after => .ok (.arr [], after)
      | rest => (items fuel rest).map fun (items, after) => (.arr items, after)
    | .char '\x7b' :: rest => do
      let (fields, after) ← match skipSpace rest with
        | .char '\x7d' :: after => .ok ([], after)
        | rest => members fuel rest
      return (.obj (← (close fields).mapError .refused), after)
    | cs =>
      match scalar? cs with
      | some (.ok result, after) => .ok (result, after)
      | some (.error b, _) => .error (.breakdown b)
      | none => .error (.fault ⟨.value, cs⟩)

/-- Reads the items of an array up to its end. -/
def items : (fuel : Nat) → List CodePoint → Except (Failure ε) (List Json × List CodePoint)
  | 0, cs => .error (.fault ⟨.value, cs⟩)
  | fuel + 1, cs => do
    let (item, rest) ← datum fuel cs
    match skipSpace rest with
    | .char ']' :: after => return ([item], after)
    | .char ',' :: rest =>
      let (others, after) ← items fuel (skipSpace rest)
      return (item :: others, after)
    | rest => throw (.fault ⟨.comma, rest⟩)

/-- Reads the members of an object up to its end. -/
def members : (fuel : Nat) → List CodePoint →
    Except (Failure ε) (List (Text × Json) × List CodePoint)
  | 0, cs => .error (.fault ⟨.value, cs⟩)
  | fuel + 1, cs =>
    match cs with
    | .char '"' :: rest => do
      let (key, rest) ← (string rest).mapError .fault
      match skipSpace rest with
      | .char ':' :: rest =>
        let (item, rest) ← datum fuel (skipSpace rest)
        match skipSpace rest with
        | .char '\x7d' :: after => return ([(key, item)], after)
        | .char ',' :: rest =>
          let (others, after) ← members fuel (skipSpace rest)
          return ((key, item) :: others, after)
        | rest => throw (.fault ⟨.comma, rest⟩)
      | rest => throw (.fault ⟨.colon, rest⟩)
    | cs => throw (.fault ⟨.propertyName, cs⟩)
end

/-- Reads a whole text, which holds one datum between blanks. -/
def document (text : List CodePoint) : Except (Failure ε) Json :=
  match text with
  | .char '\ufeff' :: _ => .error (.fault ⟨.byteOrderMark, text⟩)
  | _ => do
    let (result, rest) ← datum close (2 * text.length + 2) (skipSpace text)
    match skipSpace rest with
    | [] => return result
    | rest => throw (.fault ⟨.extraData, rest⟩)

end Parser

/-- The last member of a key replaces the earlier ones and takes the first one's place. -/
def mergeRepeated (fields : List (Text × Json)) : Except Empty (List (Text × Json)) :=
  .ok (Fields.putAll [] fields)

/-- Reads a text; of members with one key the last counts. -/
def parse (text : List CodePoint) : Except (Failure Empty) Json :=
  Parser.document mergeRepeated text

/-- An object with two members of one key is refused. -/
def refuseRepeated (fields : List (Text × Json)) : Except Text (List (Text × Json)) :=
  match Fields.repeated? [] fields with
  | some key => .error key
  | none => .ok fields

/-- Reads a text in which no object may repeat a key; the refused key is the cause. -/
def parseDistinct (text : List CodePoint) : Except (Failure Text) Json :=
  Parser.document refuseRepeated text

end EndpointRules.Json
