import EndpointRules.Json.Basic

/-! Values that rules compute with. The absence of a value is `none` and no value of its own. -/

namespace EndpointRules

/-- A rule value. -/
inductive Value where
  | string (s : Text)
  | bool (b : Bool)
  | int (n : Int)
  | list (items : List Value)
  | record (fields : List (Text × Value))
  deriving Repr, Inhabited

namespace Value

mutual
private def decEqValue : (v w : Value) → Decidable (v = w)
  | .string s, .string t => decidable_of_iff (s = t) (by simp)
  | .bool a, .bool b => decidable_of_iff (a = b) (by simp)
  | .int m, .int n => decidable_of_iff (m = n) (by simp)
  | .list xs, .list ys =>
    match decEqItems xs ys with
    | isTrue h => isTrue (by rw [h])
    | isFalse h => isFalse (by simp [h])
  | .record xs, .record ys =>
    match decEqFields xs ys with
    | isTrue h => isTrue (by rw [h])
    | isFalse h => isFalse (by simp [h])
  | .string _, .bool _ | .string _, .int _ | .string _, .list _ | .string _, .record _
  | .bool _, .string _ | .bool _, .int _ | .bool _, .list _ | .bool _, .record _
  | .int _, .string _ | .int _, .bool _ | .int _, .list _ | .int _, .record _
  | .list _, .string _ | .list _, .bool _ | .list _, .int _ | .list _, .record _
  | .record _, .string _ | .record _, .bool _ | .record _, .int _ | .record _, .list _ =>
    isFalse (by simp)

private def decEqItems : (xs ys : List Value) → Decidable (xs = ys)
  | [], [] => isTrue rfl
  | x :: xs, y :: ys =>
    match decEqValue x y, decEqItems xs ys with
    | isTrue h, isTrue t => isTrue (by rw [h, t])
    | isFalse h, _ => isFalse (by simp [h])
    | _, isFalse t => isFalse (by simp [t])
  | [], _ :: _ | _ :: _, [] => isFalse (by simp)

private def decEqFields : (xs ys : List (Text × Value)) → Decidable (xs = ys)
  | [], [] => isTrue rfl
  | (k, x) :: xs, (l, y) :: ys =>
    match decEq k l, decEqValue x y, decEqFields xs ys with
    | isTrue k, isTrue h, isTrue t => isTrue (by rw [k, h, t])
    | isFalse k, _, _ => isFalse (by simp [k])
    | _, isFalse h, _ => isFalse (by simp [h])
    | _, _, isFalse t => isFalse (by simp [t])
  | [], _ :: _ | _ :: _, [] => isFalse (by simp)
end

instance : DecidableEq Value := decEqValue

def kindWord : Value → Text
  | .string _ => "string"
  | .bool _ => "bool"
  | .int _ => "int"
  | .list _ => "list"
  | .record _ => "record"

/-- The word for the kind of a value that may be absent. -/
def kindWordOf : Option Value → Text
  | none => "none"
  | some v => v.kindWord

/-- A condition holds unless its value is absent or false. -/
def isTruthy : Option Value → Bool
  | none => false
  | some (.bool b) => b
  | some _ => true

mutual
def toJson : Value → Json
  | .string s => .str s
  | .bool b => .bool b
  | .int n => .int n
  | .list items => .arr (itemsToJson items)
  | .record fields => .obj (fieldsToJson fields)

def itemsToJson : List Value → List Json
  | [] => []
  | v :: rest => v.toJson :: itemsToJson rest

def fieldsToJson : List (Text × Value) → List (Text × Json)
  | [] => []
  | (key, v) :: rest => (key, v.toJson) :: fieldsToJson rest
end

/-- What messages show of a value of some kind. -/
def tagged (word kind content : Text) : Text :=
  word ++ "(kind='" ++ kind ++ "', value=" ++ content ++ ")"

mutual
/-- A value with its kind, as messages show it. -/
def literal : Value → Text
  | .string s => tagged "StringVal" "string" (Text.quoted s)
  | .bool b => tagged "BoolVal" "bool" (Json.literal (.bool b))
  | .int n => tagged "IntVal" "int" (toString n)
  | .list items => tagged "ListVal" "list" (Text.tupled (literals items))
  | .record fields => tagged "RecordVal" "record" (Text.mapping (literalFields fields))

def literals : List Value → List Text
  | [] => []
  | v :: rest => v.literal :: literals rest

def literalFields : List (Text × Value) → List (Text × Text)
  | [] => []
  | (key, v) :: rest => (Text.quoted key, v.literal) :: literalFields rest
end

mutual
/-- A whole number in a value has too many digits to be written. -/
def hasLongNumber : Value → Bool
  | .int n => isLong n
  | .list items => anyLongNumber items
  | .record fields => anyMemberLongNumber fields
  | .string _ | .bool _ => false

def anyLongNumber : List Value → Bool
  | [] => false
  | v :: rest => v.hasLongNumber || anyLongNumber rest

def anyMemberLongNumber : List (Text × Value) → Bool
  | [] => false
  | (_, v) :: rest => v.hasLongNumber || anyMemberLongNumber rest
end

/-- What a message shows of a value. -/
def shown (v : Value) : Except Breakdown Text :=
  if v.hasLongNumber then .error .longNumber else .ok v.literal

/-- What a value holds, without its kind on the outside. -/
def contentLiteral : Value → Text
  | .string s => Text.quoted s
  | .bool b => Json.literal (.bool b)
  | .int n => toString n
  | .list items => Text.tupled (literals items)
  | .record fields => Text.mapping (literalFields fields)

end Value

/-- Names with their values; a name may be bound to the absence of a value. -/
abbrev Frame := List (Text × Option Value)

end EndpointRules
