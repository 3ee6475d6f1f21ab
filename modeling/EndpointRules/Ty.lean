import EndpointRules.Fields

/-! Static types of expressions, and the names in lexical scope with their types. -/

namespace EndpointRules

/-- A static type; `any` is the type of what is only known at resolution. -/
inductive Ty where
  | bool
  | int
  | string
  | list (of : Ty)
  | record
  | any
  deriving DecidableEq, Repr

namespace Ty

def text : Ty → Text
  | .bool => "bool"
  | .int => "int"
  | .string => "string"
  | .list of => "list<" ++ of.text ++ ">"
  | .record => "record"
  | .any => "any"

/-- A value of type `got` may stand where `expected` is declared. -/
def assignable : (expected got : Ty) → Bool
  | .any, _ | _, .any => true
  | .bool, .bool | .int, .int | .string, .string | .record, .record => true
  | .list expected, .list got => assignable expected got
  | _, _ => false

end Ty

/-- Names in scope; extending an environment leaves it as it was. -/
structure TyEnv where
  bindings : List (Text × Ty)
  deriving DecidableEq, Repr

namespace TyEnv

def extend (env : TyEnv) (name : Text) (type : Ty) : TyEnv :=
  ⟨Fields.put name type env.bindings⟩

def find? (env : TyEnv) (name : Text) : Option Ty := Fields.get? name env.bindings

def contains (env : TyEnv) (name : Text) : Bool := Fields.hasKey name env.bindings

def size (env : TyEnv) : Nat := env.bindings.length

/-- An extension is found by its name, and all other names are found as before. -/
theorem find?_extend (env : TyEnv) (name other : Text) (type : Ty) :
    (env.extend name type).find? other =
      if name = other then some type else env.find? other :=
  Fields.get?_put name other type env.bindings

end TyEnv

end EndpointRules
