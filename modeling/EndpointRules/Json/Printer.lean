import EndpointRules.Json.Basic

/-! Writing JSON text, in ASCII: on one line with the members of objects as they stand, or over
several lines with the members in the order of their keys. -/

namespace EndpointRules.Json

namespace Printer

def unitEscape (unit : Nat) : List CodePoint := .char '\\' :: .char 'u' :: Text.hexDigits 4 unit

/-- A code point in a string. Beyond the sixteen-bit numbers it is written as a pair of units. -/
def writeChar (c : CodePoint) : List CodePoint :=
  if c = '"' then [.char '\\', .char '"']
  else if c = '\\' then [.char '\\', .char '\\']
  else if c = '\n' then [.char '\\', .char 'n']
  else if c = '\r' then [.char '\\', .char 'r']
  else if c = '\t' then [.char '\\', .char 't']
  else if c = '\x08' then [.char '\\', .char 'b']
  else if c = '\x0c' then [.char '\\', .char 'f']
  else if 32 ≤ c.toNat ∧ c.toNat < 127 then [c]
  else if c.toNat < 0x10000 then unitEscape c.toNat
  else
    let offset := c.toNat - 0x10000
    unitEscape (0xd800 + offset / 0x400) ++ unitEscape (0xdc00 + offset % 0x400)

def writeString (s : Text) : Text :=
  Text.ofList (.char '"' :: s.toList.flatMap writeChar ++ [.char '"'])

def writeFloat : Double → Text
  | .nan => "NaN"
  | .infinite negative => if negative then "-Infinity" else "Infinity"
  | x => x.text

/-- How data are laid out: `separator` follows an item, every datum of an array or object starts
with `lead` for its depth, and `sortsKeys` puts members in the order of their keys. -/
structure Layout where
  lead : Nat → Text
  separator : Text
  colon : Text
  sortsKeys : Bool

/-- Everything on one line, without blanks. -/
def compact : Layout := ⟨fun _ => "", ",", ":", false⟩

/-- One datum per line, two blanks for each level. -/
def indented : Layout :=
  ⟨fun depth => "\n" ++ Text.ofList (List.replicate (2 * depth) (.char ' ')), ",", ": ", true⟩

mutual
/-- The text of a datum that stands at a depth. -/
def write (layout : Layout) (depth : Nat) : Json → Text
  | .null => "null"
  | .bool b => if b then "true" else "false"
  | .int n => toString n
  | .float x => writeFloat x
  | .str s => writeString s
  | .arr [] => "[]"
  | .arr items =>
    "[" ++ Text.intercalate layout.separator (writeItems layout (depth + 1) items)
      ++ layout.lead depth ++ "]"
  | .obj [] => "\x7b\x7d"
  | .obj fields =>
    let members := writeFields layout (depth + 1) fields
    let ordered := (if layout.sortsKeys then Fields.sorted members else members).map (·.2)
    "\x7b" ++ Text.intercalate layout.separator ordered ++ layout.lead depth ++ "\x7d"

def writeItems (layout : Layout) (depth : Nat) : List Json → List Text
  | [] => []
  | item :: rest =>
    (layout.lead depth ++ write layout depth item) :: writeItems layout depth rest

def writeFields (layout : Layout) (depth : Nat) : List (Text × Json) → List (Text × Text)
  | [] => []
  | (key, item) :: rest =>
    (key, layout.lead depth ++ writeString key ++ layout.colon ++ write layout depth item) ::
      writeFields layout depth rest
end

end Printer

def text (datum : Json) : Text := Printer.write Printer.compact 0 datum

def indentedText (datum : Json) : Text := Printer.write Printer.indented 0 datum

end EndpointRules.Json
