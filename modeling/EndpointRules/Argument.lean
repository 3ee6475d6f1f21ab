import EndpointRules.Value.Basic

/-! Native data that callers supply, and their conversion to values. -/

namespace EndpointRules

/-- What an object of the caller's own shows of itself: the name of its type, its text, and whether
it fails when it is asked for its identifier. -/
structure Entity where
  typeName : Text
  text : Except Breakdown Text
  refusal? : Option Breakdown

/-- What a caller supplies. An entity comes with its identifier, null if it has none; a value has
been converted before. -/
inductive Argument where
  | null
  | bool (b : Bool)
  | int (n : Int)
  | float (x : Double)
  | str (s : Text)
  | arr (items : List Argument)
  | obj (fields : List (Text × Argument))
  | entity (look : Entity) (id : Argument)
  | value (v : Value)
  deriving Inhabited

namespace Argument

/-- Why a datum has no value. -/
inductive ConversionError where
  | absentItem
  | unsupported (kind : Text)
  deriving DecidableEq, Repr

def ConversionError.message : ConversionError → Text
  | .absentItem => "List values may not contain None"
  | .unsupported kind => "Cannot convert " ++ kind ++ " to a rule value"

mutual
def ofJson : Json → Argument
  | .null => .null
  | .bool b => .bool b
  | .int n => .int n
  | .float x => .float x
  | .str s => .str s
  | .arr items => .arr (itemsOfJson items)
  | .obj fields => .obj (fieldsOfJson fields)

def itemsOfJson : List Json → List Argument
  | [] => []
  | item :: rest => ofJson item :: itemsOfJson rest

def fieldsOfJson : List (Text × Json) → List (Text × Argument)
  | [] => []
  | (key, item) :: rest => (key, ofJson item) :: fieldsOfJson rest
end

mutual
/-- The value of an argument; null has none. Entries without a value are left out of a record, but
a list must not hold any. -/
def toValue : Argument → Except ConversionError (Option Value)
  | .null => .ok none
  | .bool b => .ok (some (.bool b))
  | .int n => .ok (some (.int n))
  | .float _ => .error (.unsupported "float")
  | .str s => .ok (some (.string s))
  | .arr items => do
    let values ← itemValues items
    if values.all Option.isSome then return some (.list (values.filterMap id))
    else throw .absentItem
  | .obj fields => do return some (.record (← fieldValues fields))
  | .entity look _ => .error (.unsupported look.typeName)
  | .value v => .ok (some v)

def itemValues : List Argument → Except ConversionError (List (Option Value))
  | [] => .ok []
  | item :: rest => do return (← item.toValue) :: (← itemValues rest)

def fieldValues : List (Text × Argument) → Except ConversionError (List (Text × Value))
  | [] => .ok []
  | (key, item) :: rest => do
    let first ← item.toValue
    let others ← fieldValues rest
    match first with
    | none => return others
    | some v => return (key, v) :: others
end

mutual
/-- What a message shows of an argument. -/
def shown : Argument → Except Breakdown Text
  | .null => .ok (Json.literal .null)
  | .bool b => .ok (Json.literal (.bool b))
  | .int n => decimalText n
  | .float x => .ok x.text
  | .str s => .ok (Text.quoted s)
  | .arr items => (shownItems items).map Text.listing
  | .obj fields => (shownFields fields).map Text.mapping
  | .entity look _ => look.text
  | .value v => v.shown

def shownItems : List Argument → Except Breakdown (List Text)
  | [] => .ok []
  | item :: rest => do return (← item.shown) :: (← shownItems rest)

def shownFields : List (Text × Argument) → Except Breakdown (List (Text × Text))
  | [] => .ok []
  | (key, item) :: rest => do
    let text ← item.shown
    return (Text.quoted key, text) :: (← shownFields rest)
end

/-- The text of an argument; a string is its own text. -/
def shownPlain : Argument → Except Breakdown Text
  | .str s => .ok s
  | x => x.shown

def isNull : Argument → Bool
  | .null => true
  | _ => false

end Argument

def Frame.ofArguments : List (Text × Argument) → Except Argument.ConversionError Frame
  | [] => .ok []
  | (name, x) :: rest => do return (name, ← x.toValue) :: (← Frame.ofArguments rest)

end EndpointRules
