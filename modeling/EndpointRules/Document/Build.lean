import EndpointRules.Argument
import EndpointRules.Document.Validate

/-! Rules and parameters from a document. Building a document that was not found valid may fail. -/

namespace EndpointRules.Document

/-- Why nothing can be built from a datum. -/
inductive BuildError where
  | templateSyntax (e : Template.SyntaxError)
  | notSearchable (kind : Text)
  | notIterable (kind : Text)
  | missing (key : Text)
  | misplaced (kind : Text)
  | conversion (e : Argument.ConversionError)
  | breakdown (b : Breakdown)
  deriving DecidableEq, Repr

def BuildError.message : BuildError → Text
  | .templateSyntax e => e.message
  | .notSearchable kind => "argument of type '" ++ kind ++ "' is not iterable"
  | .notIterable kind => "'" ++ kind ++ "' object is not iterable"
  | .missing key => Text.quoted key
  | .misplaced kind => "'" ++ kind ++ "' object has no attribute 'get'"
  | .conversion e => e.message
  | .breakdown b => b.message

def members : Json → Except BuildError (List (Text × Json))
  | .obj fields => .ok fields
  | v => .error (.misplaced v.kindWord)

def items : Json → Except BuildError (List Json)
  | .arr items => .ok items
  | v => .error (.notIterable v.kindWord)

def need (key : Text) (fields : List (Text × Json)) : Except BuildError Json :=
  match Fields.get? key fields with
  | some v => .ok v
  | none => .error (.missing key)

def text? (key : Text) (fields : List (Text × Json)) : Except BuildError (Option Text) :=
  match (Fields.get? key fields).getD .null with
  | .null => .ok none
  | .str s => .ok (some s)
  | v => .error (.misplaced v.kindWord)

def BuildError.ofTemplate : Template.Failure → BuildError
  | .malformed e => .templateSyntax e
  | .breakdown b => .breakdown b

def buildTemplate (source : Text) : Except BuildError Expr :=
  ((Template.parse source).mapError .ofTemplate).map .template

def buildTemplates : List Text → Except BuildError (List Expr)
  | [] => .ok []
  | source :: rest => do return (← buildTemplate source) :: (← buildTemplates rest)

mutual
/-- An expression. A member `ref` makes an object a reference and otherwise a member `fn` makes it
a call. -/
def buildExpr : Json → Except BuildError Expr
  | .str s => buildTemplate s
  | .bool b => .ok (.bool b)
  | .int n => .ok (.int n)
  | .arr items => (buildItems items).map .list
  | .obj fields =>
    match Fields.get? "ref" fields with
    | some name => .ok (.ref (Name.ofJson name))
    | none =>
      match Fields.get? "fn" fields with
      | some name => buildCall (Name.ofJson name) fields
      | none => (buildFields fields).map .record
  | v => .error (.notSearchable v.kindWord)

def buildItems : List Json → Except BuildError (List Expr)
  | [] => .ok []
  | item :: rest => do return (← buildExpr item) :: (← buildItems rest)

def buildFields : List (Text × Json) → Except BuildError (List (Text × Expr))
  | [] => .ok []
  | (key, item) :: rest => do
    let e ← buildExpr item
    return (key, e) :: (← buildFields rest)

/-- Finds the arguments among the members of a call. -/
def buildCall (name : Name) : List (Text × Json) → Except BuildError Expr
  | [] => .error (.missing "argv")
  | (key, args) :: rest =>
    if key = "argv" then (buildArgs args).map (.call name) else buildCall name rest

/-- The arguments of a call. The characters of a text and the keys of an object count as items. -/
def buildArgs : Json → Except BuildError (List Expr)
  | .arr items => buildItems items
  | .str s => buildTemplates (s.toList.map fun c => .ofList [c])
  | .obj fields => buildTemplates (Fields.keys fields)
  | v => .error (.notIterable v.kindWord)
end

def buildCondition (raw : Json) : Except BuildError Condition := do
  let fields ← members raw
  let expr ← buildExpr (.obj (Fields.drop "assign" fields))
  return ⟨expr, ← text? "assign" fields⟩

def buildConditions : List Json → Except BuildError (List Condition)
  | [] => .ok []
  | raw :: rest => do return (← buildCondition raw) :: (← buildConditions rest)

def buildHeaders : List (Text × Json) → Except BuildError (List (Text × List Expr))
  | [] => .ok []
  | (name, values) :: rest => do
    let exprs ← buildItems (← items values)
    return (name, exprs) :: (← buildHeaders rest)

def buildEndpoint (raw : Json) : Except BuildError EndpointBody := do
  let fields ← members raw
  let url ← buildExpr (← need "url" fields)
  let properties ← buildFields (← members ((Fields.get? "properties" fields).getD (.obj [])))
  let headers ← buildHeaders (← members ((Fields.get? "headers" fields).getD (.obj [])))
  return ⟨url, properties, headers⟩

def childPath (parent : Text) (index : Nat) : Text :=
  Text.indexed (if parent = Rule.rootPath then "rules" else parent ++ ".rules") index

mutual
def buildRule (path : Text) : Json → Except BuildError Rule
  | .obj fields => do
    let conditions ← buildConditions
      (← items ((Fields.get? "conditions" fields).getD (.arr [])))
    let documentation ← text? "documentation" fields
    let head : RuleHead := ⟨path, conditions, documentation⟩
    match ruleKind? (← need "type" fields) with
    | some .endpoint => return .endpoint head (← buildEndpoint (← need "endpoint" fields))
    | some .error => return .error head (← buildExpr (← need "error" fields))
    | _ => return .tree head (← buildChildren path fields)
  | v => .error (.misplaced v.kindWord)

/-- Finds the children among the members of a tree rule. -/
def buildChildren (path : Text) : List (Text × Json) → Except BuildError (List Rule)
  | [] => .error (.missing "rules")
  | (key, rules) :: rest =>
    if key = "rules" then buildRuleArray path rules else buildChildren path rest

def buildRuleArray (path : Text) : Json → Except BuildError (List Rule)
  | .arr rules => buildRules path 0 rules
  | v => .error (.notIterable v.kindWord)

def buildRules (path : Text) (index : Nat) : List Json → Except BuildError (List Rule)
  | [] => .ok []
  | rule :: rest => do
    let first ← buildRule (childPath path index) rule
    return first :: (← buildRules path (index + 1) rest)
end

/-- A notice of deprecation: an object with details, or just true. -/
def buildDeprecation : Json → Except BuildError (Option Deprecation)
  | .obj fields => do return some ⟨← text? "message" fields, ← text? "since" fields⟩
  | .bool true => .ok (some ⟨none, none⟩)
  | _ => .ok none

/-- A flag that is off when it is left out. -/
def buildFlag (key : Text) (fields : List (Text × Json)) : Except BuildError Bool :=
  match (Fields.get? key fields).getD (.bool false) with
  | .bool b => .ok b
  | v => .error (.misplaced v.kindWord)

def buildCoercion (fields : List (Text × Json)) : Except BuildError (Option Coercion) := do
  match ← text? "coerce" fields with
  | none => return none
  | some name => match Coercion.ofText? name with
    | some c => return some c
    | none => throw (.missing name)

def buildParameter (name : Text) (raw : Json) : Except BuildError Parameter := do
  let fields ← members raw
  let deprecated ← buildDeprecation ((Fields.get? "deprecated" fields).getD .null)
  let typeName ← need "type" fields
  let type ← match parameterType? typeName with
    | some type => pure type
    | none => throw (match typeName with
      | .str s => .missing (Text.ofList (Text.lowerAscii s.toList))
      | v => .misplaced v.kindWord)
  let required ← buildFlag "required" fields
  let default ← ((Argument.ofJson ((Fields.get? "default" fields).getD .null)).toValue).mapError
    BuildError.conversion
  let builtIn ← text? "builtIn" fields
  let documentation ← text? "documentation" fields
  let coerce ← buildCoercion fields
  return ⟨name, type, required, default, builtIn, deprecated, documentation, coerce⟩

def buildParameters : List (Text × Json) → Except BuildError (List Parameter)
  | [] => .ok []
  | (name, raw) :: rest => do
    let first ← buildParameter name raw
    return first :: (← buildParameters rest)

end EndpointRules.Document
