import EndpointRules.RuleSet
import EndpointRules.Text.Classes

/-! Values given on the command line, read by the declared type of their parameter. -/

namespace EndpointRules.CommandLine

/-- Why values on the command line cannot be used. -/
inductive AssignmentError where
  | noEquals (item : Option Text)
  | notBoolean (parameter text : Text)
  | breakdown (b : Breakdown)
  deriving DecidableEq, Repr

def AssignmentError.message : AssignmentError → Text
  | .noEquals (some item) => "Expected KEY=VALUE, got " ++ Text.quoted item
  | .noEquals none => "Expected KEY=VALUE, got " ++ Text.listing []
  | .notBoolean parameter text =>
    parameter ++ " expects true or false, got " ++ Text.quoted text
  | .breakdown b => b.message

/-- A truth value; blanks around it and its case do not matter. -/
def boolean? (text : Text) : Option Bool :=
  let word := Text.ofList (Text.lowerAscii (Text.strip text.toList))
  if word = "true" then some true
  else if word = "false" then some false
  else none

/-- The texts of a list: a JSON array, or else pieces between commas of which blank ones do not
count. A whole number in the JSON may have too many digits to be read. -/
def listTexts (text : Text) : Except Breakdown (List Text) :=
  match Json.parse text.toList with
  | .ok (.arr items) => .ok (items.map Json.plainText)
  | .error (.breakdown b) => .error b
  | _ => .ok
    (((text.toList.splitOn (.char ',')).map Text.strip).filter (!·.isEmpty) |>.map Text.ofList)

/-- The datum that a text gives for a declared parameter, or for one that is not declared. -/
def parseValue (p : Option Parameter) (text : Text) : Except AssignmentError Json :=
  match p with
  | none => .ok (.str text)
  | some p => match p.type with
    | .string => .ok (.str text)
    | .boolean => match boolean? text with
      | some b => .ok (.bool b)
      | none => .error (.notBoolean p.name text)
    | .stringArray =>
      ((listTexts text).mapError .breakdown).map fun texts => .arr (texts.map .str)

/-- One `KEY=VALUE`; the key ends at the first equals sign. -/
def parseAssignment (rs : Option RuleSet) (item : Text) :
    Except AssignmentError (Text × Json) :=
  match Text.cutAt? '=' item.toList with
  | none => .error (.noEquals (some item))
  | some (key, text) => do
    let key := Text.ofList key
    let value ← parseValue (rs.bind (·.parameter? key)) (Text.ofList text)
    return (key, value)

/-- Further assignments after some entries. The last one of a key counts. -/
def assignAll (rs : Option RuleSet) (done : List (Text × Json)) :
    List Text → Except AssignmentError (List (Text × Json))
  | [] => .ok done
  | item :: rest => do
    let (key, value) ← parseAssignment rs item
    assignAll rs (Fields.put key value done) rest

def parseAssignments (rs : Option RuleSet) (items : List Text) :
    Except AssignmentError (List (Text × Json)) :=
  assignAll rs [] items

/-- Assignments among which some may have been lost. -/
def parseGiven (rs : Option RuleSet) (items : List (Option Text)) :
    Except AssignmentError (List (Text × Json)) := do
  let entries ← parseAssignments rs (items.takeWhile Option.isSome |>.filterMap id)
  if items.all Option.isSome then return entries else throw (.noEquals none)

end EndpointRules.CommandLine
