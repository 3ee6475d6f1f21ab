import EndpointRules.Breakdown
import EndpointRules.Fields
import EndpointRules.Number.Shortest
import EndpointRules.Text.Literal

/-! JSON data. Objects keep the order of their members, and whole numbers are kept apart from
numbers with a fraction or an exponent. -/

namespace EndpointRules

/-- A JSON datum. -/
inductive Json where
  | null
  | bool (b : Bool)
  | int (n : Int)
  | float (x : Double)
  | str (s : Text)
  | arr (items : List Json)
  | obj (fields : List (Text × Json))
  deriving Repr, Inhabited

namespace Json

mutual
private def decEqJson : (d e : Json) → Decidable (d = e)
  | .null, e =>
    match e with
    | .null => isTrue rfl
    | .bool _ | .int _ | .float _ | .str _ | .arr _ | .obj _ => isFalse nofun
  | .bool a, e =>
    match e with
    | .bool b => decidable_of_iff (a = b) (by simp)
    | .null | .int _ | .float _ | .str _ | .arr _ | .obj _ => isFalse nofun
  | .int m, e =>
    match e with
    | .int n => decidable_of_iff (m = n) (by simp)
    | .null | .bool _ | .float _ | .str _ | .arr _ | .obj _ => isFalse nofun
  | .float x, e =>
    match e with
    | .float y => decidable_of_iff (x = y) (by simp)
    | .null | .bool _ | .int _ | .str _ | .arr _ | .obj _ => isFalse nofun
  | .str s, e =>
    match e with
    | .str t => decidable_of_iff (s = t) (by simp)
    | .null | .bool _ | .int _ | .float _ | .arr _ | .obj _ => isFalse nofun
  | .arr xs, e =>
    match e with
    | .arr ys =>
      match decEqItems xs ys with
      | isTrue h => isTrue (by rw [h])
      | isFalse h => isFalse (by simp [h])
    | .null | .bool _ | .int _ | .float _ | .str _ | .obj _ => isFalse nofun
  | .obj xs, e =>
    match e with
    | .obj ys =>
      match decEqFields xs ys with
      | isTrue h => isTrue (by rw [h])
      | isFalse h => isFalse (by simp [h])
    | .null | .bool _ | .int _ | .float _ | .str _ | .arr _ => isFalse nofun

private def decEqItems : (xs ys : List Json) → Decidable (xs = ys)
  | [], [] => isTrue rfl
  | x :: xs, y :: ys =>
    match decEqJson x y, decEqItems xs ys with
    | isTrue h, isTrue t => isTrue (by rw [h, t])
    | isFalse h, _ => isFalse (by simp [h])
    | _, isFalse t => isFalse (by simp [t])
  | [], _ :: _ | _ :: _, [] => isFalse nofun

private def decEqFields : (xs ys : List (Text × Json)) → Decidable (xs = ys)
  | [], [] => isTrue rfl
  | (k, x) :: xs, (l, y) :: ys =>
    match decEq k l, decEqJson x y, decEqFields xs ys with
    | isTrue k, isTrue h, isTrue t => isTrue (by rw [k, h, t])
    | isFalse k, _, _ => isFalse (by simp [k])
    | _, isFalse h, _ => isFalse (by simp [h])
    | _, _, isFalse t => isFalse (by simp [t])
  | [], _ :: _ | _ :: _, [] => isFalse nofun
end

instance : DecidableEq Json := decEqJson

def isString : Json → Bool
  | .str _ => true
  | _ => false

def isBool : Json → Bool
  | .bool _ => true
  | _ => false

/-- A datum counts as given unless it is null, false, zero or empty. -/
def isGiven : Json → Bool
  | .null => false
  | .bool b => b
  | .int n => n ≠ 0
  | .float x => !x.isZero
  | .str s => s ≠ ""
  | .arr items => !items.isEmpty
  | .obj fields => !fields.isEmpty

/-- The word for a kind of datum in messages. -/
def kindWord : Json → Text
  | .null => "NoneType"
  | .bool _ => "bool"
  | .int _ => "int"
  | .float _ => "float"
  | .str _ => "str"
  | .arr _ => "list"
  | .obj _ => "dict"

mutual
def literal : Json → Text
  | .null => "None"
  | .bool b => if b then "True" else "False"
  | .int n => toString n
  | .float x => x.text
  | .str s => Text.quoted s
  | .arr items => Text.listing (literals items)
  | .obj fields => Text.mapping (literalFields fields)

def literals : List Json → List Text
  | [] => []
  | item :: rest => item.literal :: literals rest

def literalFields : List (Text × Json) → List (Text × Text)
  | [] => []
  | (key, item) :: rest => (Text.quoted key, item.literal) :: literalFields rest
end

/-- A datum put into a sentence: a string stands for itself. -/
def plainText : Json → Text
  | .str s => s
  | datum => datum.literal

mutual
/-- A whole number in a datum has too many digits to be written. -/
def hasLongNumber : Json → Bool
  | .int n => isLong n
  | .arr items => anyLongNumber items
  | .obj fields => anyMemberLongNumber fields
  | _ => false

def anyLongNumber : List Json → Bool
  | [] => false
  | item :: rest => item.hasLongNumber || anyLongNumber rest

def anyMemberLongNumber : List (Text × Json) → Bool
  | [] => false
  | (_, item) :: rest => item.hasLongNumber || anyMemberLongNumber rest
end

/-- What a message shows of a datum. -/
def shown (datum : Json) : Except Breakdown Text :=
  if datum.hasLongNumber then .error .longNumber else .ok datum.literal

/-- What a sentence shows of a datum; a string stands for itself. -/
def shownPlain (datum : Json) : Except Breakdown Text :=
  if datum.hasLongNumber then .error .longNumber else .ok datum.plainText

/-- The whole number that a number or truth value is equal to. -/
def wholeNumber? : Json → Option Int
  | .bool b => some (if b then 1 else 0)
  | .int n => some n
  | .float x => x.toInt?
  | _ => none

mutual
/-- Equality that does not tell numbers and truth values of one size apart and does not look at
the order of members. -/
def looseEq : Json → Json → Bool
  | .null, .null => true
  | .str s, .str t => s = t
  | .arr xs, .arr ys => looseEqItems xs ys
  | .obj xs, .obj ys => xs.length = ys.length && looseEqFields xs ys
  | .float x, .float y => x.numEq y
  | x, y =>
    match x.wholeNumber?, y.wholeNumber? with
    | some m, some n => m = n
    | _, _ => false

def looseEqItems : List Json → List Json → Bool
  | [], [] => true
  | x :: xs, y :: ys => x.looseEq y && looseEqItems xs ys
  | _, _ => false

/-- Each member has its equal in the other object. -/
def looseEqFields : List (Text × Json) → List (Text × Json) → Bool
  | [], _ => true
  | (key, x) :: xs, ys =>
    (match Fields.get? key ys with
      | some y => x.looseEq y
      | none => false) && looseEqFields xs ys
end

end Json
end EndpointRules
