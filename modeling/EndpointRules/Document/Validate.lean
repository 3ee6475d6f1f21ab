import EndpointRules.Document.Diagnostics
import EndpointRules.Function.Registry
import EndpointRules.Parameter
import EndpointRules.Rule
import EndpointRules.Template.Parser

/-! The structure that a rule set document has to have. All defects are reported in one pass. -/

namespace EndpointRules.Document

def isIdent : Json → Bool
  | .str s => Text.isIdent s.toList
  | _ => false

/-- The type that a parameter declaration names. Case does not matter; all keywords are ASCII. -/
def parameterType? : Json → Option ParameterType
  | .str s => ParameterType.ofKeyword? (Text.ofList (Text.lowerAscii s.toList))
  | _ => none

def ruleKind? : Json → Option RuleKind
  | .str s =>
    if s = "endpoint" then some .endpoint
    else if s = "error" then some .error
    else if s = "tree" then some .tree
    else none
  | _ => none

def coercion? : Json → Option Coercion
  | .str s => Coercion.ofText? s
  | _ => none

/-- A member that, if it is there, has to be a string. -/
def validateText (key label : Text) (fields : List (Text × Json)) : Inspection Unit :=
  match Fields.get? key fields with
  | some v => Inspection.require v.isString ("'" ++ label ++ "' must be a string") v
  | none => pure ()

def validateDefault (type : Option ParameterType) (default : Json) : Inspection Unit :=
  match type, default with
  | some .string, v => Inspection.require v.isString "Default must be a string" v
  | some .boolean, v => Inspection.require v.isBool "Default must be a boolean" v
  | some .stringArray, .arr items =>
    Inspection.require (items.all Json.isString) "Default must be an array of strings" (.arr items)
  | some .stringArray, v => Inspection.defect "Default must be an array of strings" v
  | none, _ => pure ()

def validateDeprecated : Json → Inspection Unit
  | .obj fields => do
    validateText "message" "deprecated.message" fields
    validateText "since" "deprecated.since" fields
  | v => Inspection.require v.isBool "'deprecated' must be an object or a boolean" v

/-- A coercion is looked for among the known ones, for which a list or a record is no key. -/
def validateCoercion : Json → Inspection Unit
  | .arr items => throw (.unsearchable (Json.arr items).kindWord)
  | .obj fields => throw (.unsearchable (Json.obj fields).kindWord)
  | c => Inspection.requireKnown (coercion? c).isSome "coercion" c

def validateParameter (name : Text) (declaration : Json) : Inspection Unit := do
  Inspection.require (Text.isIdent name.toList) "Parameter name must be an identifier" (.str name)
  match declaration with
  | .obj fields =>
    let typeName := (Fields.get? "type" fields).getD .null
    let type := parameterType? typeName
    Inspection.requireKnown type.isSome "parameter type" typeName
    let required := (Fields.get? "required" fields).getD (.bool false)
    Inspection.require required.isBool "'required' must be a boolean" required
    match Fields.get? "default" fields with
    | some default =>
      if required matches .bool true then
        Inspection.defect "Required parameter must not declare a default" default
      validateDefault type default
    | none => pure ()
    validateText "builtIn" "builtIn" fields
    validateText "documentation" "documentation" fields
    match Fields.get? "deprecated" fields with
    | some deprecated => validateDeprecated deprecated
    | none => pure ()
    match Fields.get? "coerce" fields with
    | some c => validateCoercion c
    | none => pure ()
  | v => Inspection.defect "Parameter must be an object" v

/-- A path that is given as text without placeholders is known before any resolution. -/
def validateAttrPath : Option Json → Inspection Bool
  | some (.str path) =>
    if path.toList.contains '\x7b' then pure true
    else do
      match ← (AttrPath.read path : Except Breakdown _) with
      | some _ => return true
      | none =>
        Inspection.within "argv[1]"
          (Inspection.defect ("Malformed getAttr path: " ++ Text.quoted path) (.str path))
        return false
  | _ => pure true

def invalid (message : Text) (value : Json) : Inspection Bool := do
  Inspection.defect message value
  return false

mutual
/-- An expression; the answer is whether it has no defect. -/
def validateExpr (r : Registry) : Json → Inspection Bool
  | .str s =>
    match Template.parse s with
    | .ok _ => pure true
    | .error (.malformed e) => invalid ("Invalid template: " ++ e.message) (.str s)
    | .error (.breakdown b) => throw b
  | .bool _ | .int _ => pure true
  | .arr items => validateItems r "" 0 items
  | .obj fields =>
    match Fields.get? "ref" fields with
    | some name =>
      if isIdent name then pure true
      else invalid "ref expression must have a valid 'ref' name" (.obj fields)
    | none =>
      match Fields.get? "fn" fields with
      | some (.str name) => validateCall r name (.obj fields) fields
      | some _ => invalid "fn expression must have a string 'fn' name" (.obj fields)
      | none => validateFields r fields
  | v => invalid "Expression must be a string, boolean, integer, array or object" v

/-- Expressions in order; `label` and the index name the place of each. -/
def validateItems (r : Registry) (label : Text) (index : Nat) : List Json → Inspection Bool
  | [] => pure true
  | item :: rest => do
    let ok ← Inspection.within (Text.indexed label index) (validateExpr r item)
    let others ← validateItems r label (index + 1) rest
    return ok && others

def validateFields (r : Registry) : List (Text × Json) → Inspection Bool
  | [] => pure true
  | (key, item) :: rest => do
    let ok ← Inspection.within key (validateExpr r item)
    let others ← validateFields r rest
    return ok && others

/-- Finds the arguments among the members of a call. -/
def validateCall (r : Registry) (name : Text) (whole : Json) :
    List (Text × Json) → Inspection Bool
  | [] => invalid "fn expression must have an 'argv' array" whole
  | (key, args) :: rest =>
    if key = "argv" then validateArgs r name whole args else validateCall r name whole rest

/-- The arguments of a call: a known function takes as many as it has parameters. -/
def validateArgs (r : Registry) (name : Text) (whole : Json) : Json → Inspection Bool
  | .arr args =>
    match r.find? name with
    | none => invalid ("Unknown function: " ++ name) (.str name)
    | some f =>
      if f.params.length ≠ args.length then
        invalid (EvalError.arity f.params.length args.length name).message (.arr args)
      else do
        let ok ← validateItems r "argv" 0 args
        if name = "getAttr" && ok then validateAttrPath args[1]? else return ok
  | _ => invalid "fn expression must have an 'argv' array" whole
end

/-- A condition: a call or a reference, and a name for its value. -/
def validateCondition (r : Registry) : Json → Inspection Unit
  | .obj fields => do
    match Fields.get? "assign" fields with
    | some name => Inspection.require (isIdent name) "'assign' must be an identifier" name
    | none => pure ()
    if Fields.hasKey "fn" fields || Fields.hasKey "ref" fields then
      discard (validateExpr r (.obj (Fields.drop "assign" fields)))
    else Inspection.defect "Condition must be a function call or a reference" (.obj fields)
  | v => Inspection.defect "Condition must be an object" v

def validateConditions (r : Registry) (index : Nat) : List Json → Inspection Unit
  | [] => pure ()
  | condition :: rest => do
    Inspection.within (Text.indexed "conditions" index) (validateCondition r condition)
    validateConditions r (index + 1) rest

/-- The headers of an endpoint, each with an array of values. -/
def validateHeaders (r : Registry) : List (Text × Json) → Inspection Unit
  | [] => pure ()
  | (name, values) :: rest => do
    Inspection.within name (match values with
      | .arr items => discard (validateExpr r (.arr items))
      | v => Inspection.defect "Header values must be an array" v)
    validateHeaders r rest

def validateEndpoint (r : Registry) : Json → Inspection Unit
  | .obj fields => do
    match Fields.get? "url" fields with
    | none => Inspection.defect "endpoint must have a 'url'" (.obj fields)
    | some url => Inspection.within "url" (discard (validateExpr r url))
    Inspection.within "properties" (match (Fields.get? "properties" fields).getD (.obj []) with
      | .obj properties => discard (validateExpr r (.obj properties))
      | v => Inspection.defect "'properties' must be an object" v)
    Inspection.within "headers" (match (Fields.get? "headers" fields).getD (.obj []) with
      | .obj headers => validateHeaders r headers
      | v => Inspection.defect "'headers' must be an object" v)
  | v => Inspection.defect "endpoint rule must have an 'endpoint' object" v

mutual
def validateRule (r : Registry) : Json → Inspection Unit
  | .obj fields =>
    let kind := (Fields.get? "type" fields).getD .null
    match ruleKind? kind with
    | none => Inspection.requireKnown false "rule type" kind
    | some kind => do
      validateText "documentation" "documentation" fields
      match (Fields.get? "conditions" fields).getD (.arr []) with
      | .arr conditions => validateConditions r 0 conditions
      | v => Inspection.within "conditions" (Inspection.defect "'conditions' must be an array" v)
      match kind with
      | .endpoint =>
        Inspection.within "endpoint"
          (validateEndpoint r ((Fields.get? "endpoint" fields).getD .null))
      | .error =>
        Inspection.within "error" (match Fields.get? "error" fields with
          | none => Inspection.defect "error rule must have an 'error' message" (.obj fields)
          | some message => discard (validateExpr r message))
      | .tree => validateChildren r fields
  | v => Inspection.defect "Rule must be an object" v

/-- Finds the children among the members of a tree rule. -/
def validateChildren (r : Registry) : List (Text × Json) → Inspection Unit
  | [] => Inspection.defect "tree rule must have a non-empty 'rules' array" .null
  | (key, rules) :: rest =>
    if key = "rules" then validateRuleArray r rules else validateChildren r rest

/-- The children of a tree rule; there is at least one. -/
def validateRuleArray (r : Registry) : Json → Inspection Unit
  | .arr rules =>
    if rules.isEmpty then
      Inspection.defect "tree rule must have a non-empty 'rules' array" (.arr rules)
    else validateRules r 0 rules
  | v => Inspection.defect "tree rule must have a non-empty 'rules' array" v

def validateRules (r : Registry) (index : Nat) : List Json → Inspection Unit
  | [] => pure ()
  | rule :: rest => do
    Inspection.within (Text.indexed "rules" index) (validateRule r rule)
    validateRules r (index + 1) rest
end

def validateParameters : List (Text × Json) → Inspection Unit
  | [] => pure ()
  | (name, declaration) :: rest => do
    Inspection.within name (validateParameter name declaration)
    validateParameters rest

def validateRuleSet (r : Registry) : Json → Inspection Unit
  | .obj fields => do
    let version := (Fields.get? "version" fields).getD .null
    Inspection.within "version"
      (Inspection.require version.isString "Rule set must have a 'version' string" version)
    Inspection.within "parameters" (match (Fields.get? "parameters" fields).getD (.obj []) with
      | .obj parameters => validateParameters parameters
      | v => Inspection.defect "'parameters' must be an object" v)
    match (Fields.get? "rules" fields).getD .null with
    | .arr (first :: others) => validateRules r 0 (first :: others)
    | v =>
      Inspection.within "rules"
        (Inspection.defect "Rule set must have a non-empty 'rules' array" v)
  | v => Inspection.defect "Rule set must be an object" v

end EndpointRules.Document
