import EndpointRules.Proofs.Breakdowns
import EndpointRules.Proofs.Inspections
import EndpointRules.Document.Validate

/-! Every look of the validator is regular: what it finds in a part of a document depends on that
part only, not on where the part stands or on earlier defects, and if it is broken off, then because
of something in that part. The looks at expressions answer whether they find nothing. -/

namespace EndpointRules.Document
open Inspection
variable {r : Registry} {cause : Breakdown → Prop}

theorem regular_validateText (key label : Text) (fields : List (Text × Json)) :
    (validateText key label fields).Regular cause := by
  unfold validateText
  split
  · exact regular_require _ _ _
  · exact regular_pure ()

theorem regular_validateDefault (type : Option ParameterType) (default : Json) :
    (validateDefault type default).Regular cause := by
  unfold validateDefault
  split
  · exact regular_require _ _ _
  · exact regular_require _ _ _
  · exact regular_require _ _ _
  · exact regular_defect _ _
  · exact regular_pure ()

private theorem regular_validateDeprecated (deprecated : Json) :
    (validateDeprecated deprecated).Regular cause := by
  unfold validateDeprecated
  split
  · exact (regular_validateText _ _ _).bind fun _ => regular_validateText _ _ _
  · exact regular_require _ _ _

private theorem honest_invalid (message : Text) (value : Json) :
    (invalid message value).Honest cause :=
  .inl ⟨_, (finds_defect message value).bind (finds_pure false)⟩

theorem honest_validateAttrPath (path : Option Json) :
    (validateAttrPath path).Honest fun b => ∃ raw, path = some raw ∧ raw.Explains b := by
  unfold validateAttrPath
  split
  · next path =>
    split
    · exact honest_true
    · cases hread : AttrPath.read path with
      | error b =>
        rw [lift_error_bind]
        exact honest_throw ⟨_, rfl, Json.explains_of_tooLongIn (AttrPath.read_error hread)⟩
      | ok steps =>
        rw [lift_ok_bind]
        cases steps with
        | some steps => exact honest_true
        | none => exact .inl ⟨_, ((finds_defect _ _).within _).bind (finds_pure false)⟩
  · exact honest_true

/-- The same for the path among the arguments of a call. -/
theorem honest_validatePathAmong (args : List Json) :
    (validateAttrPath args[1]?).Honest (Json.arr args).Explains := by
  refine (honest_validateAttrPath args[1]?).mono fun b h => ?_
  obtain ⟨raw, hget, hraw⟩ := h
  exact .item (List.mem_of_getElem? hget) hraw

mutual
/-- The look at an expression is the same wherever the expression stands, and it answers whether it
finds nothing. -/
theorem honest_validateExpr : (e : Json) → (validateExpr r e).Honest e.Explains
  | .str s => by
    unfold validateExpr
    split
    · exact honest_true
    · exact honest_invalid _ _
    · next hparse =>
      exact honest_throw (Json.explains_of_tooLongIn (Template.tooLongIn_of_parse hparse))
  | .bool _ | .int _ => by
    unfold validateExpr
    exact honest_true
  | .arr items => by
    unfold validateExpr
    exact honest_validateItems "" 0 items
  | .obj fields => by
    unfold validateExpr
    split
    · split
      · exact honest_true
      · exact honest_invalid _ _
    · split
      · exact honest_validateCall _ _ fields
      · exact honest_invalid _ _
      · exact honest_validateFields fields
  | .null | .float _ => by
    unfold validateExpr
    exact honest_invalid _ _

theorem honest_validateItems : (label : Text) → (index : Nat) → (items : List Json) →
    (validateItems r label index items).Honest (Json.arr items).Explains
  | _, _, [] => by
    unfold validateItems
    exact honest_true
  | label, index, item :: rest => by
    unfold validateItems
    have hitem := ((honest_validateExpr item).within (Text.indexed label index)).mono
      fun _ => Json.Explains.item (List.mem_cons_self (a := item) (l := rest))
    have hrest := (honest_validateItems label (index + 1) rest).mono
      fun _ => Json.Explains.tail item
    exact hitem.both hrest

theorem honest_validateFields : (fields : List (Text × Json)) →
    (validateFields r fields).Honest (Json.obj fields).Explains
  | [] => by
    unfold validateFields
    exact honest_true
  | (key, item) :: rest => by
    unfold validateFields
    have hitem := ((honest_validateExpr item).within key).mono
      fun _ => Json.Explains.member (List.mem_cons_self (a := (key, item)) (l := rest))
    have hrest := (honest_validateFields rest).mono
      fun _ => Json.Explains.further (key, item)
    exact hitem.both hrest

theorem honest_validateCall : (name : Text) → (whole : Json) →
    (fields : List (Text × Json)) →
    (validateCall r name whole fields).Honest (Json.obj fields).Explains
  | _, _, [] => by
    unfold validateCall
    exact honest_invalid _ _
  | name, whole, (key, args) :: rest => by
    unfold validateCall
    split
    · exact (honest_validateArgs name whole args).mono
        fun _ => Json.Explains.member (List.mem_cons_self (a := (key, args)) (l := rest))
    · exact (honest_validateCall name whole rest).mono fun _ => Json.Explains.further _

private theorem honest_validateArgs : (name : Text) → (whole : Json) → (args : Json) →
    (validateArgs r name whole args).Honest args.Explains
  | name, whole, .arr args => by
    unfold validateArgs
    split
    · exact honest_invalid _ _
    · split
      · exact honest_invalid _ _
      · exact (honest_validateItems "argv" 0 args).andThen (honest_validatePathAmong args) _
  | _, _, .null | _, _, .bool _ | _, _, .int _ | _, _, .float _ | _, _, .str _ | _, _, .obj _ => by
    unfold validateArgs
    exact honest_invalid _ _
end

theorem regular_validateExpr (e : Json) : (validateExpr r e).Regular e.Explains :=
  (honest_validateExpr e).regular

private theorem regular_validateItems (label : Text) (index : Nat) (items : List Json) :
    (validateItems r label index items).Regular (Json.arr items).Explains :=
  (honest_validateItems label index items).regular

private theorem regular_validateFields (fields : List (Text × Json)) :
    (validateFields r fields).Regular (Json.obj fields).Explains :=
  (honest_validateFields fields).regular

/-! The parts of conditions and endpoints, each looked at on its own. -/

def validateAssign (fields : List (Text × Json)) : Inspection Unit :=
  match Fields.get? "assign" fields with
  | some name => Inspection.require (isIdent name) "'assign' must be an identifier" name
  | none => pure ()

def validateGuard (r : Registry) (fields : List (Text × Json)) : Inspection Unit :=
  if Fields.hasKey "fn" fields || Fields.hasKey "ref" fields then
    discard (validateExpr r (.obj (Fields.drop "assign" fields)))
  else Inspection.defect "Condition must be a function call or a reference" (.obj fields)

private theorem validateCondition_obj (fields : List (Text × Json)) :
    validateCondition r (.obj fields) = (do
      validateAssign fields
      validateGuard r fields) := by
  unfold validateCondition validateAssign
  dsimp only
  cases Fields.get? "assign" fields <;> rfl

def validateHeaderValues (r : Registry) (values : Json) : Inspection Unit :=
  match values with
  | .arr items => discard (validateExpr r (.arr items))
  | v => Inspection.defect "Header values must be an array" v

theorem validateHeaders_cons (name : Text) (values : Json) (rest : List (Text × Json)) :
    validateHeaders r ((name, values) :: rest) = (do
      Inspection.within name (validateHeaderValues r values)
      validateHeaders r rest) := by
  cases values <;> rfl

def validateUrl (r : Registry) (fields : List (Text × Json)) : Inspection Unit :=
  match Fields.get? "url" fields with
  | none => Inspection.defect "endpoint must have a 'url'" (.obj fields)
  | some url => Inspection.within "url" (discard (validateExpr r url))

def validateProperties (r : Registry) (properties : Json) : Inspection Unit :=
  match properties with
  | .obj properties => discard (validateExpr r (.obj properties))
  | v => Inspection.defect "'properties' must be an object" v

def validateHeaderObject (r : Registry) (headers : Json) : Inspection Unit :=
  match headers with
  | .obj headers => validateHeaders r headers
  | v => Inspection.defect "'headers' must be an object" v

private theorem validateEndpoint_obj (fields : List (Text × Json)) :
    validateEndpoint r (.obj fields) = (do
      validateUrl r fields
      Inspection.within "properties"
        (validateProperties r ((Fields.get? "properties" fields).getD (.obj [])))
      Inspection.within "headers"
        (validateHeaderObject r ((Fields.get? "headers" fields).getD (.obj [])))) := by
  unfold validateEndpoint validateUrl
  dsimp only
  cases Fields.get? "url" fields <;> rfl

private theorem regular_validateAssign (cause : Breakdown → Prop) (fields : List (Text × Json)) :
    (validateAssign fields).Regular cause := by
  unfold validateAssign
  split
  · exact regular_require _ _ _
  · exact regular_pure ()

private theorem regular_validateGuard (fields : List (Text × Json)) :
    (validateGuard r fields).Regular (Json.obj fields).Explains := by
  unfold validateGuard
  split
  · exact (regular_validateExpr _).discard.mono fun _ => Json.Explains.of_drop
  · exact regular_defect _ _

theorem regular_validateCondition (condition : Json) :
    (validateCondition r condition).Regular condition.Explains := by
  cases condition with
  | obj fields =>
    rw [validateCondition_obj]
    exact (regular_validateAssign _ fields).bind fun _ => regular_validateGuard fields
  | _ => exact regular_defect _ _

theorem clean_validateCondition_iff (fields : List (Text × Json)) :
    (validateCondition r (.obj fields)).Clean ↔
      (validateAssign fields).Clean ∧ (validateGuard r fields).Clean := by
  rw [validateCondition_obj, (regular_validateAssign (Json.obj fields).Explains
    fields).clean_bind_iff fun _ => regular_validateGuard fields]

theorem regular_validateConditions (index : Nat) (conditions : List Json) :
    (validateConditions r index conditions).Regular (Json.arr conditions).Explains := by
  induction conditions generalizing index with
  | nil => exact regular_pure ()
  | cons condition rest ih =>
    have hfirst := ((regular_validateCondition (r := r) condition).within
      (Text.indexed "conditions" index)).mono
      fun _ => Json.Explains.item (List.mem_cons_self (a := condition) (l := rest))
    exact hfirst.bind fun _ => (ih (index + 1)).mono fun _ => Json.Explains.tail _

theorem regular_validateHeaderValues (values : Json) :
    (validateHeaderValues r values).Regular values.Explains := by
  unfold validateHeaderValues
  split
  · exact (regular_validateExpr _).discard
  · exact regular_defect _ _

theorem regular_validateHeaders (headers : List (Text × Json)) :
    (validateHeaders r headers).Regular (Json.obj headers).Explains := by
  induction headers with
  | nil => exact regular_pure ()
  | cons header rest ih =>
    obtain ⟨name, values⟩ := header
    rw [validateHeaders_cons]
    have hvalues := ((regular_validateHeaderValues (r := r) values).within name).mono
      fun _ => Json.Explains.member (List.mem_cons_self (a := (name, values)) (l := rest))
    exact hvalues.bind fun _ => ih.mono fun _ => Json.Explains.further _

private theorem regular_validateUrl (fields : List (Text × Json)) :
    (validateUrl r fields).Regular (Json.obj fields).Explains := by
  unfold validateUrl
  split
  · exact regular_defect _ _
  · next hurl => exact ((regular_validateExpr _).discard.within _).mono fun _ => .of_get? hurl

private theorem regular_validateProperties (properties : Json) :
    (validateProperties r properties).Regular properties.Explains := by
  unfold validateProperties
  split
  · exact (regular_validateExpr _).discard
  · exact regular_defect _ _

private theorem regular_validateHeaderObject (headers : Json) :
    (validateHeaderObject r headers).Regular headers.Explains := by
  unfold validateHeaderObject
  split
  · exact regular_validateHeaders _
  · exact regular_defect _ _

private theorem regular_givenProperties (fields : List (Text × Json)) :
    (Inspection.within "properties" (validateProperties r
      ((Fields.get? "properties" fields).getD (.obj [])))).Regular (Json.obj fields).Explains :=
  ((regular_validateProperties _).within _).mono
    fun _ => Json.Explains.of_getD Json.not_explains_noMembers

private theorem regular_givenHeaders (fields : List (Text × Json)) :
    (Inspection.within "headers" (validateHeaderObject r
      ((Fields.get? "headers" fields).getD (.obj [])))).Regular (Json.obj fields).Explains :=
  ((regular_validateHeaderObject _).within _).mono
    fun _ => Json.Explains.of_getD Json.not_explains_noMembers

theorem regular_validateEndpoint (endpoint : Json) :
    (validateEndpoint r endpoint).Regular endpoint.Explains := by
  cases endpoint with
  | obj fields =>
    rw [validateEndpoint_obj]
    exact (regular_validateUrl _).bind fun _ => (regular_givenProperties _).bind
      fun _ => regular_givenHeaders _
  | _ => exact regular_defect _ _

theorem clean_validateEndpoint_iff (fields : List (Text × Json)) :
    (validateEndpoint r (.obj fields)).Clean ↔
      (validateUrl r fields).Clean ∧
      (validateProperties r ((Fields.get? "properties" fields).getD (.obj []))).Clean ∧
      (validateHeaderObject r ((Fields.get? "headers" fields).getD (.obj []))).Clean := by
  have hheaders (_ : Unit) := regular_givenHeaders (r := r) fields
  rw [validateEndpoint_obj, (regular_validateUrl _).clean_bind_iff fun _ =>
      (regular_givenProperties _).bind hheaders,
    (regular_givenProperties _).clean_bind_iff hheaders,
    (regular_validateProperties _).clean_within_iff,
    (regular_validateHeaderObject _).clean_within_iff]

/-- The conditions among the members of a rule, as they are looked at. -/
def validateRuleConditions (r : Registry) (fields : List (Text × Json)) : Inspection Unit :=
  match (Fields.get? "conditions" fields).getD (.arr []) with
  | .arr conditions => validateConditions r 0 conditions
  | v => Inspection.within "conditions" (Inspection.defect "'conditions' must be an array" v)

/-- What a rule of a kind has besides its conditions, as it is looked at. -/
def validateRuleBody (r : Registry) (kind : RuleKind) (fields : List (Text × Json)) :
    Inspection Unit :=
  match kind with
  | .endpoint =>
    Inspection.within "endpoint" (validateEndpoint r ((Fields.get? "endpoint" fields).getD .null))
  | .error =>
    Inspection.within "error" (match Fields.get? "error" fields with
      | none => Inspection.defect "error rule must have an 'error' message" (.obj fields)
      | some message => discard (validateExpr r message))
  | .tree => validateChildren r fields

/-- A rule of a known kind is looked at part by part. -/
theorem validateRule_obj {fields : List (Text × Json)} {kind : RuleKind}
    (h : ruleKind? ((Fields.get? "type" fields).getD .null) = some kind) :
    validateRule r (.obj fields) = (do
      validateText "documentation" "documentation" fields
      validateRuleConditions r fields
      validateRuleBody r kind fields) := by
  unfold validateRule validateRuleConditions
  simp only [h]
  congr 1
  funext _
  cases (Fields.get? "conditions" fields).getD (.arr []) <;> rfl

theorem regular_validateRuleConditions (fields : List (Text × Json)) :
    (validateRuleConditions r fields).Regular (Json.obj fields).Explains := by
  unfold validateRuleConditions
  split
  · next hconditions =>
    refine (regular_validateConditions _ _).mono fun _ h => ?_
    rw [← hconditions] at h
    exact h.of_getD Json.not_explains_noItems
  · exact (regular_defect _ _).within _

private theorem regular_message (fields : List (Text × Json)) :
    (match Fields.get? "error" fields with
      | none => Inspection.defect "error rule must have an 'error' message" (.obj fields)
      | some message => discard (validateExpr r message) : Inspection Unit).Regular
      (Json.obj fields).Explains := by
  split
  · exact regular_defect _ _
  · next hget => exact (regular_validateExpr _).discard.mono fun _ => .of_get? hget

private theorem regular_body {kind : RuleKind} {fields : List (Text × Json)}
    (h : (validateChildren r fields).Regular (Json.obj fields).Explains) :
    (validateRuleBody r kind fields).Regular (Json.obj fields).Explains := by
  cases kind with
  | endpoint =>
    exact ((regular_validateEndpoint _).within _).mono
      fun _ => Json.Explains.of_getD Json.not_explains_null
  | error => exact (regular_message fields).within _
  | tree => exact h

/-- The look at the parts of a rule is regular if the look at its children is. -/
private theorem regular_rule {fields : List (Text × Json)}
    (h : (validateChildren r fields).Regular (Json.obj fields).Explains) :
    (validateRule r (.obj fields)).Regular (Json.obj fields).Explains := by
  cases hk : ruleKind? ((Fields.get? "type" fields).getD .null) with
  | none =>
    unfold validateRule
    simp only [hk]
    exact regular_requireKnown _ _ fun hlong =>
      (Json.explains_of_hasLongNumber _ hlong).of_getD Json.not_explains_null
  | some kind =>
    rw [validateRule_obj hk]
    exact (regular_validateText _ _ _).bind fun _ =>
      (regular_validateRuleConditions _).bind fun _ => regular_body h

mutual
/-- The look at a rule is the same wherever the rule stands. -/
theorem regular_validateRule : (rule : Json) → (validateRule r rule).Regular rule.Explains
  | .obj fields => regular_rule (regular_validateChildren fields)
  | .null | .bool _ | .int _ | .float _ | .str _ | .arr _ => by
    unfold validateRule
    exact regular_defect _ _

private theorem regular_validateChildren : (fields : List (Text × Json)) →
    (validateChildren r fields).Regular (Json.obj fields).Explains
  | [] => by
    unfold validateChildren
    exact regular_defect _ _
  | (key, rules) :: rest => by
    unfold validateChildren
    split
    · exact (regular_validateRuleArray rules).mono
        fun _ => Json.Explains.member (List.mem_cons_self (a := (key, rules)) (l := rest))
    · exact (regular_validateChildren rest).mono fun _ => Json.Explains.further _

private theorem regular_validateRuleArray : (rules : Json) →
    (validateRuleArray r rules).Regular rules.Explains
  | .arr rules => by
    unfold validateRuleArray
    split
    · exact regular_defect _ _
    · exact regular_validateRules 0 rules
  | .null | .bool _ | .int _ | .float _ | .str _ | .obj _ => by
    unfold validateRuleArray
    exact regular_defect _ _

theorem regular_validateRules : (index : Nat) → (rules : List Json) →
    (validateRules r index rules).Regular (Json.arr rules).Explains
  | _, [] => by
    unfold validateRules
    exact regular_pure ()
  | index, rule :: rest => by
    unfold validateRules
    have hrule := ((regular_validateRule rule).within (Text.indexed "rules" index)).mono
      fun _ => Json.Explains.item (List.mem_cons_self (a := rule) (l := rest))
    exact hrule.bind fun _ =>
      (regular_validateRules (index + 1) rest).mono fun _ => Json.Explains.tail _
end

theorem clean_validateRule_iff {fields : List (Text × Json)} {kind : RuleKind}
    (hk : ruleKind? ((Fields.get? "type" fields).getD .null) = some kind) :
    (validateRule r (.obj fields)).Clean ↔
      (validateText "documentation" "documentation" fields).Clean ∧
      (validateRuleConditions r fields).Clean ∧ (validateRuleBody r kind fields).Clean := by
  have hbody (_ : Unit) : (validateRuleBody r kind fields).Regular (Json.obj fields).Explains :=
    regular_body (regular_validateChildren fields)
  have hconditions := regular_validateRuleConditions (r := r) fields
  have htext : (validateText "documentation" "documentation" fields).Regular
    (Json.obj fields).Explains := regular_validateText _ _ _
  rw [validateRule_obj hk, htext.clean_bind_iff fun _ => hconditions.bind hbody,
    hconditions.clean_bind_iff hbody]

/-- The message of an error rule is an expression that was looked at. -/
theorem clean_validateMessage_iff (fields : List (Text × Json)) :
    (validateRuleBody r .error fields).Clean ↔
      ∃ message, Fields.get? "error" fields = some message ∧ (validateExpr r message).Clean := by
  have hbody : (validateRuleBody r .error fields).Clean ↔ (match Fields.get? "error" fields with
      | none => Inspection.defect "error rule must have an 'error' message" (.obj fields)
      | some message => discard (validateExpr r message) : Inspection Unit).Clean :=
    (regular_message fields).clean_within_iff _
  rw [hbody]
  cases Fields.get? "error" fields with
  | none => simp
  | some message =>
    rw [(regular_validateExpr message).clean_discard_iff]
    simp

/-! Declarations of parameters. -/

/-- A declaration whose coercion is an array or an object, which no table of names can be asked
for. -/
def OpensCoercion (declaration : Json) (b : Breakdown) : Prop :=
  ∃ fields c, declaration = .obj fields ∧ Fields.get? "coerce" fields = some c ∧
    ((∃ items, c = .arr items) ∨ ∃ members, c = .obj members) ∧ b = .unsearchable c.kindWord

/-- What the look at a declaration can be broken off for. -/
def DisturbsDeclaration (declaration : Json) (b : Breakdown) : Prop :=
  declaration.Explains b ∨ OpensCoercion declaration b

/-- The default among the members of a declaration, as it is looked at. -/
def validateGivenDefault (required : Json) (type : Option ParameterType)
    (fields : List (Text × Json)) : Inspection Unit :=
  match Fields.get? "default" fields with
  | some default => do
    if required matches .bool true then
      Inspection.defect "Required parameter must not declare a default" default
    validateDefault type default
  | none => pure ()

def validateNotice (fields : List (Text × Json)) : Inspection Unit :=
  match Fields.get? "deprecated" fields with
  | some deprecated => validateDeprecated deprecated
  | none => pure ()

def validateGivenCoercion (fields : List (Text × Json)) : Inspection Unit :=
  match Fields.get? "coerce" fields with
  | some c => validateCoercion c
  | none => pure ()

/-- The members of a declaration that may be left out, besides the default. -/
def validateExtras (fields : List (Text × Json)) : Inspection Unit := do
  validateText "builtIn" "builtIn" fields
  validateText "documentation" "documentation" fields
  validateNotice fields
  validateGivenCoercion fields

private theorem validateParameter_obj (name : Text) (fields : List (Text × Json)) :
    validateParameter name (.obj fields) = (do
      Inspection.require (Text.isIdent name.toList) "Parameter name must be an identifier"
        (.str name)
      let typeName := (Fields.get? "type" fields).getD .null
      let type := parameterType? typeName
      Inspection.requireKnown type.isSome "parameter type" typeName
      let required := (Fields.get? "required" fields).getD (.bool false)
      Inspection.require required.isBool "'required' must be a boolean" required
      validateGivenDefault required type fields
      validateExtras fields) := by
  unfold validateParameter validateGivenDefault validateExtras validateNotice validateGivenCoercion
  dsimp only
  cases Fields.get? "deprecated" fields <;> cases Fields.get? "coerce" fields
  all_goals
    generalize (Fields.get? "required" fields).getD (.bool false) = required
    cases Fields.get? "default" fields with
    | none => simp only [pure_bind, bind_pure_unit]
    | some default =>
      cases required with
      | bool flag => cases flag <;> simp [bind_assoc]
      | _ => simp

private theorem regular_validateGivenDefault (required : Json) (type : Option ParameterType)
    (fields : List (Text × Json)) :
    (validateGivenDefault required type fields).Regular cause := by
  unfold validateGivenDefault
  split
  · dsimp only
    split
    · exact (regular_defect _ _).bind fun _ => regular_validateDefault _ _
    · exact regular_validateDefault _ _
  · exact regular_pure ()

private theorem regular_validateNotice (fields : List (Text × Json)) :
    (validateNotice fields).Regular cause := by
  unfold validateNotice
  split
  · exact regular_validateDeprecated _
  · exact regular_pure ()

private theorem regular_validateGivenCoercion (fields : List (Text × Json)) :
    (validateGivenCoercion fields).Regular (DisturbsDeclaration (.obj fields)) := by
  unfold validateGivenCoercion
  split
  · next c hget =>
    unfold validateCoercion
    split
    · exact regular_throw (.inr ⟨fields, _, rfl, hget, .inl ⟨_, rfl⟩, rfl⟩)
    · exact regular_throw (.inr ⟨fields, _, rfl, hget, .inr ⟨_, rfl⟩, rfl⟩)
    · exact regular_requireKnown _ _ fun hlong =>
        .inl ((Json.explains_of_hasLongNumber _ hlong).of_get? hget)
  · exact regular_pure ()

private theorem regular_validateExtras (fields : List (Text × Json)) :
    (validateExtras fields).Regular (DisturbsDeclaration (.obj fields)) :=
  (regular_validateText _ _ _).bind fun _ => (regular_validateText _ _ _).bind fun _ =>
    (regular_validateNotice _).bind fun _ => regular_validateGivenCoercion _

theorem clean_validateExtras_iff (fields : List (Text × Json)) :
    (validateExtras fields).Clean ↔
      (validateText "builtIn" "builtIn" fields).Clean ∧
      (validateText "documentation" "documentation" fields).Clean ∧
      (validateNotice fields).Clean ∧ (validateGivenCoercion fields).Clean := by
  have htext (key label : Text) : (validateText key label fields).Regular
    (DisturbsDeclaration (.obj fields)) := regular_validateText key label fields
  have hnotice : (validateNotice fields).Regular (DisturbsDeclaration (.obj fields)) :=
    regular_validateNotice fields
  have hcoercion (_ : Unit) := regular_validateGivenCoercion fields
  rw [validateExtras,
    (htext _ _).clean_bind_iff fun _ => (htext _ _).bind fun _ => hnotice.bind hcoercion,
    (htext _ _).clean_bind_iff fun _ => hnotice.bind hcoercion, hnotice.clean_bind_iff hcoercion]

private theorem regular_typeName (fields : List (Text × Json)) (known : Bool) :
    (Inspection.requireKnown known "parameter type"
      ((Fields.get? "type" fields).getD .null)).Regular (DisturbsDeclaration (.obj fields)) :=
  regular_requireKnown _ _ fun hlong =>
    .inl ((Json.explains_of_hasLongNumber _ hlong).of_getD Json.not_explains_null)

theorem regular_validateParameter (name : Text) (declaration : Json) :
    (validateParameter name declaration).Regular (DisturbsDeclaration declaration) := by
  cases declaration with
  | obj fields =>
    rw [validateParameter_obj]
    exact (regular_require _ _ _).bind fun _ => (regular_typeName fields _).bind fun _ =>
      (regular_require _ _ _).bind fun _ => (regular_validateGivenDefault _ _ _).bind fun _ =>
        regular_validateExtras _
  | _ => exact (regular_require _ _ _).bind fun _ => regular_defect _ _

theorem clean_validateParameter_iff (name : Text) (fields : List (Text × Json)) :
    (validateParameter name (.obj fields)).Clean ↔
      Text.isIdent name.toList = true ∧
      (parameterType? ((Fields.get? "type" fields).getD .null)).isSome = true ∧
      ((Fields.get? "required" fields).getD (.bool false)).isBool = true ∧
      (validateGivenDefault ((Fields.get? "required" fields).getD (.bool false))
        (parameterType? ((Fields.get? "type" fields).getD .null)) fields).Clean ∧
      (validateExtras fields).Clean := by
  have hextras (_ : Unit) := regular_validateExtras fields
  have hdefault (required : Json) (type : Option ParameterType) :
      (validateGivenDefault required type fields).Regular (DisturbsDeclaration (.obj fields)) :=
    regular_validateGivenDefault required type fields
  have hrequire (condition : Bool) (message : Text) (value : Json) :
      (Inspection.require condition message value).Regular (DisturbsDeclaration (.obj fields)) :=
    regular_require condition message value
  rw [validateParameter_obj]
  dsimp only
  rw [(hrequire _ _ _).clean_bind_iff fun _ => (regular_typeName fields _).bind fun _ =>
      (hrequire _ _ _).bind fun _ => (hdefault _ _).bind hextras,
    (regular_typeName fields _).clean_bind_iff fun _ =>
      (hrequire _ _ _).bind fun _ => (hdefault _ _).bind hextras,
    (hrequire _ _ _).clean_bind_iff fun _ => (hdefault _ _).bind hextras,
    (hdefault _ _).clean_bind_iff hextras]
  simp only [clean_require_iff, clean_requireKnown_iff]

/-- What the look at the declarations of a document can be broken off for. -/
def DisturbsDeclarations (parameters : List (Text × Json)) (b : Breakdown) : Prop :=
  ∃ name declaration, (name, declaration) ∈ parameters ∧ DisturbsDeclaration declaration b

theorem regular_validateParameters (parameters : List (Text × Json)) :
    (validateParameters parameters).Regular (DisturbsDeclarations parameters) := by
  induction parameters with
  | nil => exact regular_pure ()
  | cons parameter rest ih =>
    obtain ⟨name, declaration⟩ := parameter
    have hfirst := ((regular_validateParameter name declaration).within name).mono
      fun b hb => (⟨name, declaration, List.mem_cons_self, hb⟩ :
        DisturbsDeclarations ((name, declaration) :: rest) b)
    exact hfirst.bind fun _ => ih.mono fun b ⟨other, raw, hmem, hb⟩ =>
      ⟨other, raw, List.mem_cons_of_mem _ hmem, hb⟩

/-! The whole document. -/

def validateDeclarations (parameters : Json) : Inspection Unit :=
  match parameters with
  | .obj parameters => validateParameters parameters
  | v => Inspection.defect "'parameters' must be an object" v

def validateTopRules (r : Registry) (rules : Json) : Inspection Unit :=
  match rules with
  | .arr (first :: others) => validateRules r 0 (first :: others)
  | v =>
    Inspection.within "rules" (Inspection.defect "Rule set must have a non-empty 'rules' array" v)

theorem validateRuleSet_obj (fields : List (Text × Json)) :
    validateRuleSet r (.obj fields) = (do
      let version := (Fields.get? "version" fields).getD .null
      Inspection.within "version"
        (Inspection.require version.isString "Rule set must have a 'version' string" version)
      Inspection.within "parameters"
        (validateDeclarations ((Fields.get? "parameters" fields).getD (.obj [])))
      validateTopRules r ((Fields.get? "rules" fields).getD .null)) := rfl

/-- A document has a parameter whose coercion is an array or an object. -/
def HasOpenCoercion (document : Json) (b : Breakdown) : Prop :=
  ∃ fields parameters name declaration, document = .obj fields ∧
    Fields.get? "parameters" fields = some (.obj parameters) ∧
    (name, declaration) ∈ parameters ∧ OpensCoercion declaration b

/-- What the look at a document can be broken off for. -/
def Disturbs (document : Json) (b : Breakdown) : Prop :=
  document.Explains b ∨ HasOpenCoercion document b

theorem regular_validateDeclarations (fields : List (Text × Json)) :
    (validateDeclarations ((Fields.get? "parameters" fields).getD (.obj []))).Regular
      (Disturbs (.obj fields)) := by
  unfold validateDeclarations
  split
  · next parameters hparameters =>
    refine (regular_validateParameters parameters).mono ?_
    rintro b ⟨name, declaration, hmem, hb⟩
    cases hget : Fields.get? "parameters" fields with
    | none =>
      rw [hget] at hparameters
      cases hparameters
      cases hmem
    | some v =>
      rw [hget] at hparameters
      obtain rfl : v = .obj parameters := hparameters
      rcases hb with hb | hb
      · exact .inl (.of_get? hget (.member hmem hb))
      · exact .inr ⟨fields, parameters, name, declaration, rfl, hget, hmem, hb⟩
  · exact regular_defect _ _

theorem regular_validateTopRules (rules : Json) :
    (validateTopRules r rules).Regular rules.Explains := by
  unfold validateTopRules
  split
  · exact regular_validateRules _ _
  · exact (regular_defect _ _).within _

private theorem regular_givenRules (fields : List (Text × Json)) :
    (validateTopRules r ((Fields.get? "rules" fields).getD .null)).Regular
      (Disturbs (.obj fields)) :=
  (regular_validateTopRules _).mono fun _ h => .inl (h.of_getD Json.not_explains_null)

theorem clean_validateRuleSet_iff (fields : List (Text × Json)) :
    (validateRuleSet r (.obj fields)).Clean ↔
      ((Fields.get? "version" fields).getD .null).isString = true ∧
      (validateDeclarations ((Fields.get? "parameters" fields).getD (.obj []))).Clean ∧
      (validateTopRules r ((Fields.get? "rules" fields).getD .null)).Clean := by
  have hversion (condition : Bool) (message : Text) (value : Json) :
      (Inspection.require condition message value).Regular (Disturbs (.obj fields)) :=
    regular_require condition message value
  have hrules (_ : Unit) := regular_givenRules (r := r) fields
  rw [validateRuleSet_obj]
  dsimp only
  rw [((hversion _ _ _).within _).clean_bind_iff fun _ =>
      ((regular_validateDeclarations _).within _).bind hrules,
    ((regular_validateDeclarations _).within _).clean_bind_iff hrules,
    (hversion _ _ _).clean_within_iff, (regular_validateDeclarations _).clean_within_iff,
    clean_require_iff]

theorem regular_validateRuleSet (document : Json) :
    (validateRuleSet r document).Regular (Disturbs document) := by
  cases document with
  | obj fields =>
    rw [validateRuleSet_obj]
    exact ((regular_require _ _ _).within _).bind fun _ =>
      ((regular_validateDeclarations _).within _).bind fun _ => regular_givenRules fields
  | _ => exact regular_defect _ _

end EndpointRules.Document
