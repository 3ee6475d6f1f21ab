import EndpointRules.Json.Basic

/-! Reports on the defects of a document. -/

namespace EndpointRules

/-- A defect, where it is, and the datum that has it. -/
structure Diagnostic where
  path : Text
  message : Text
  value : Json
  deriving Repr

namespace Diagnostic

def text (d : Diagnostic) : Text := d.path ++ ": " ++ d.message

def literal (d : Diagnostic) : Text :=
  ("ValidationError(" ++ Text.quoted d.path ++ ", " ++ Text.quoted d.message ++ ")")

def ofDocument (message : Text) (value : Json) : Diagnostic := ⟨"$", message, value⟩

end Diagnostic

def schemaMessage (errors : List Diagnostic) : Text :=
  ("Invalid rule set (" ++ toString errors.length ++ " error(s)):\n") ++
    Text.intercalate "\n" (errors.map fun d => "  - " ++ d.text)

/-- The place that is being looked at, from the outside inwards, and the defects found so far in
the order of their discovery. -/
structure Diagnostics where
  place : List Text
  errors : List Diagnostic
  deriving Repr

namespace Diagnostics

def empty : Diagnostics := ⟨[], []⟩

def push (segment : Text) (d : Diagnostics) : Diagnostics :=
  { d with place := d.place ++ [segment] }

/-- Leaves the part entered last. -/
def pop? (d : Diagnostics) : Option Diagnostics :=
  if d.place.isEmpty then none else some { d with place := d.place.dropLast }

/-- Segments that are indices follow without a dot. -/
def joinSegment (path segment : Text) : Text :=
  if segment.toList.head? = some (.char '[') then path ++ segment else path ++ "." ++ segment

def pathOf : (place : List Text) → Text
  | [] => "$"
  | first :: rest => rest.foldl joinSegment first

def path (d : Diagnostics) : Text := pathOf d.place

/-- Notes a defect at the present place. -/
def add (message : Text) (value : Json) (d : Diagnostics) : Diagnostics :=
  { d with errors := d.errors ++ [⟨d.path, message, value⟩] }

end Diagnostics

/-- A look at a document that may report defects. -/
abbrev Report := StateM Diagnostics

namespace Report
variable {α : Type}

/-- Reports a defect at the present place. -/
def defect (message : Text) (value : Json) : Report Unit := modify (Diagnostics.add message value)

/-- Looks at a part of the document and comes back. -/
def within (segment : Text) (look : Report α) : Report α := do
  modify (Diagnostics.push segment)
  let result ← look
  modify fun d => d.pop?.getD d
  return result

def require (condition : Bool) (message : Text) (value : Json) : Report Unit :=
  if condition then pure () else defect message value

/-- The defects that a look at a whole document reports. -/
def errors (look : Report α) : List Diagnostic := (look.run Diagnostics.empty).2.errors

end Report
/-- A look at a document that may be broken off. The place and the defects found until then are
kept. -/
abbrev Inspection := ExceptT Breakdown Report

namespace Inspection
variable {α : Type}

/-- Reports a defect at the present place. -/
def defect (message : Text) (value : Json) : Inspection Unit :=
  ExceptT.lift (Report.defect message value)

/-- Looks at a part of the document and comes back, unless the look is broken off. -/
def within (segment : Text) (look : Inspection α) : Inspection α := do
  modify (Diagnostics.push segment)
  let result ← look
  modify fun d => d.pop?.getD d
  return result

def require (condition : Bool) (message : Text) (value : Json) : Inspection Unit :=
  if condition then pure () else defect message value

/-- Reports a datum that is not one of those known, and shows it. -/
def requireKnown (known : Bool) (what : Text) (value : Json) : Inspection Unit :=
  if known then pure () else do
    let shown ← (value.shown : Except Breakdown Text)
    defect ("Unknown " ++ what ++ ": " ++ shown) value

/-- The defects that a look at a whole document reports, unless it is broken off. -/
def errors (look : Inspection α) : Except Breakdown (List Diagnostic) :=
  let (ending, d) := look.run.run Diagnostics.empty
  ending.map fun _ => d.errors

end Inspection
end EndpointRules
