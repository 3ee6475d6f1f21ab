import EndpointRules.Ty
import EndpointRules.Value.Basic

/-! Declared parameters of a rule set. -/

namespace EndpointRules

/-- The types a parameter may have. -/
inductive ParameterType where
  | string
  | boolean
  | stringArray
  deriving DecidableEq, Repr

namespace ParameterType

def text : ParameterType → Text
  | .string => "String"
  | .boolean => "Boolean"
  | .stringArray => "StringArray"

def ofKeyword? (keyword : Text) : Option ParameterType :=
  if keyword = "string" then some .string
  else if keyword = "boolean" then some .boolean
  else if keyword = "stringarray" then some .stringArray
  else none

/-- The type that a reference to a parameter has. -/
def staticType : ParameterType → Ty
  | .string => .string
  | .boolean => .bool
  | .stringArray => .list .string

def isText : Value → Bool
  | .string _ => true
  | _ => false

def accepts : ParameterType → Value → Bool
  | .string, .string _ => true
  | .boolean, .bool _ => true
  | .stringArray, .list items => items.all isText
  | _, _ => false

end ParameterType

/-- A change of a supplied datum before its conversion. -/
inductive Coercion where
  | id
  | string
  deriving DecidableEq, Repr

namespace Coercion

def text : Coercion → Text
  | .id => "id"
  | .string => "string"

def ofText? (s : Text) : Option Coercion :=
  if s = "id" then some .id else if s = "string" then some .string else none

end Coercion

/-- A notice that a parameter should no longer be supplied. -/
structure Deprecation where
  message : Option Text
  since : Option Text
  deriving DecidableEq, Repr

/-- A declared parameter. -/
structure Parameter where
  name : Text
  type : ParameterType
  required : Bool
  default : Option Value
  builtIn : Option Text
  deprecated : Option Deprecation
  documentation : Option Text
  coerce : Option Coercion
  deriving Repr

namespace Parameter

def staticType (p : Parameter) : Ty := p.type.staticType

/-- Built-ins whose configured value is an entity that rules see by its identifier. -/
def impliedCoercion? (builtIn : Text) : Option Coercion :=
  if builtIn = "AWS::Region" then some .id else none

/-- The coercion that is declared or else implied by the built-in. -/
def coercion? (p : Parameter) : Option Coercion :=
  p.coerce.or (p.builtIn.bind impliedCoercion?)

end Parameter

def findParameter? (parameters : List Parameter) (name : Text) : Option Parameter :=
  parameters.find? fun p => p.name = name

end EndpointRules
