import EndpointRules.Proofs.Document.Loading
import EndpointRules.Proofs.Resolution.Steps
import EndpointRules.Proofs.Template.Printing

/-! Literal data among the properties of an endpoint. A datum comes back as it is once the braces in
its texts have been doubled, unless there is a null, a fraction, a reference or a call in it. -/

namespace EndpointRules

namespace Json

mutual
/-- There is no null and no number with a fraction in a datum, and no object in it has a member that
makes it a reference or a call. -/
def isLiteral : Json → Bool
  | .null | .float _ => false
  | .bool _ | .int _ | .str _ => true
  | .arr items => areLiteral items
  | .obj fields =>
    !Fields.hasKey "ref" fields && !Fields.hasKey "fn" fields && membersAreLiteral fields

def areLiteral : List Json → Bool
  | [] => true
  | item :: rest => item.isLiteral && areLiteral rest

def membersAreLiteral : List (Text × Json) → Bool
  | [] => true
  | (_, item) :: rest => item.isLiteral && membersAreLiteral rest
end

mutual
/-- The datum with each brace in its texts doubled. Keys stay as they are. -/
def escaped : Json → Json
  | .str s => .str (Text.ofList (Template.escape s.toList))
  | .arr items => .arr (escapedItems items)
  | .obj fields => .obj (escapedMembers fields)
  | v => v

def escapedItems : List Json → List Json
  | [] => []
  | item :: rest => item.escaped :: escapedItems rest

def escapedMembers : List (Text × Json) → List (Text × Json)
  | [] => []
  | (key, item) :: rest => (key, item.escaped) :: escapedMembers rest
end

private theorem keys_escapedMembers (fields : List (Text × Json)) :
    Fields.keys (escapedMembers fields) = Fields.keys fields := by
  induction fields with
  | nil => rfl
  | cons field rest ih => exact congrArg (field.1 :: ·) ih

private theorem isLiteral_obj_iff {fields : List (Text × Json)} :
    (obj fields).isLiteral = true ↔
      (Fields.get? "ref" (escapedMembers fields) = none ∧
        Fields.get? "fn" (escapedMembers fields) = none) ∧ membersAreLiteral fields = true := by
  rw [isLiteral, Bool.and_eq_true, Bool.and_eq_true, Bool.not_eq_true', Bool.not_eq_true',
    ← Bool.not_eq_true, ← Bool.not_eq_true, Fields.hasKey_iff_mem_keys,
    Fields.hasKey_iff_mem_keys, Fields.get?_eq_none_iff, Fields.get?_eq_none_iff,
    keys_escapedMembers]

end Json

/-! Templates of escaped texts. -/

namespace Template

/-- A template without placeholders for a text. -/
def IsConstantOf (t : Template) (s : Text) : Prop := t.isConstant = true ∧ t.constantText = s

/-- An escaped text is read as a constant for the text. -/
private theorem parse_escape (s : Text) :
    ∃ t, parse (Text.ofList (escape s.toList)) = .ok t ∧ t.IsConstantOf s := by
  have hread (source : Text) : outside source 0 [] (escape s.toList) =
      .ok (flush s.toList.reverse) := by
    rw [← List.append_nil (escape s.toList), outside_escape, List.append_nil, outside]
  refine ⟨⟨Text.ofList (escape s.toList), flush s.toList.reverse⟩, ?_, ?_⟩
  · rw [parse, Text.toList_ofList, hread]
    rfl
  · cases hs : s.toList.reverse with
    | nil =>
      have hempty : s = "" := Text.toList_eq_nil_iff.mp (List.reverse_eq_nil_iff.mp hs)
      rw [hempty]
      exact ⟨rfl, rfl⟩
    | cons c cs =>
      refine ⟨rfl, ?_⟩
      simp only [flush, constantText, List.map_cons, List.map_nil, ← hs, List.reverse_reverse,
        Text.ofList_toList]
      simp [Text.join]

private theorem IsConstantOf.references_eq_nil {t : Template} {s : Text} (h : t.IsConstantOf s) :
    t.references = [] := by
  have hparts := List.all_eq_true.mp h.1
  rw [references, List.filterMap_eq_nil_iff]
  intro part hpart
  cases part with
  | text s => rfl
  | placeholder name path => cases hparts _ hpart

end Template

/-! Expressions. -/

/-- An expression fits every scope, and in every environment it has the value of a datum. -/
def Expr.Denotes (e : Expr) (v : Json) : Prop :=
  (∀ r scope, e.Fits r scope) ∧
    ∀ r env, ∃ w : Value, (e.eval r env).outcome = .ok (some w) ∧ w.toJson = v

/-- A named expression denotes an entry of the same name. -/
def Expr.DenotesMember (field : Text × Expr) (entry : Text × Json) : Prop :=
  field.1 = entry.1 ∧ field.2.Denotes entry.2

namespace Expr
variable {items : List Expr} {fields : List (Text × Expr)}

private theorem denotes_template {t : Template} {s : Text} (h : t.IsConstantOf s) :
    (template t).Denotes (.str s) := by
  constructor
  · intro r scope name hname
    rw [h.references_eq_nil] at hname
    cases hname
  · intro r env
    refine ⟨.string s, ?_, rfl⟩
    rw [eval, Noted.outcome_ofExcept, evalTemplate, if_pos h.1, h.2]
    rfl

private theorem denotes_list {vs : List Json} (h : List.Forall₂ Denotes items vs) :
    (list items).Denotes (.arr vs) := by
  constructor
  · intro r scope
    rw [Fits]
    induction h with
    | nil => trivial
    | cons hfirst _ ih => exact ⟨hfirst.1 r scope, ih⟩
  · intro r env
    have hitems : ∃ ws, (evalItems r env items).outcome = .ok ws ∧ Value.itemsToJson ws = vs := by
      induction h with
      | nil => exact ⟨[], rfl, rfl⟩
      | cons hfirst _ ih =>
        obtain ⟨w, hw, rfl⟩ := hfirst.2 r env
        obtain ⟨ws, hws, rfl⟩ := ih
        refine ⟨w :: ws, ?_, rfl⟩
        rw [evalItems, Noted.outcome_bind_of_ok hw]
        dsimp only
        rw [Noted.outcome_bind_of_ok hws]
        rfl
    obtain ⟨ws, hws, rfl⟩ := hitems
    refine ⟨.list ws, ?_, by rw [Value.toJson]⟩
    rw [eval, Noted.outcome_bind_of_ok hws]
    rfl

private theorem denotes_record {entries : List (Text × Json)}
    (h : List.Forall₂ DenotesMember fields entries) : (record fields).Denotes (.obj entries) := by
  constructor
  · intro r scope
    rw [Fits]
    induction h with
    | nil => trivial
    | cons hfirst _ ih => exact ⟨hfirst.2.1 r scope, ih⟩
  · intro r env
    have hfields : ∃ ws, (evalFields r env fields).outcome = .ok ws ∧
        Value.fieldsToJson ws = entries := by
      induction h with
      | nil => exact ⟨[], rfl, rfl⟩
      | @cons field entry fields entries hfirst _ ih =>
        obtain ⟨name, e⟩ := field
        obtain ⟨name', v⟩ := entry
        obtain ⟨rfl, -, hvalue⟩ := hfirst
        obtain ⟨w, hw, rfl⟩ := hvalue r env
        obtain ⟨ws, hws, rfl⟩ := ih
        refine ⟨(name, w) :: ws, ?_, rfl⟩
        rw [evalFields, Noted.outcome_bind_of_ok hw, Noted.outcome_bind_of_ok hws]
        rfl
    obtain ⟨ws, hws, rfl⟩ := hfields
    refine ⟨.record ws, ?_, by rw [Value.toJson]⟩
    rw [eval, Noted.outcome_bind_of_ok hws]
    rfl

end Expr

namespace Document
open Json
variable {r : Registry}

mutual
/-- Escaped literal data is a valid expression. -/
private theorem clean_validateExpr_escaped : (v : Json) → v.isLiteral = true →
    (validateExpr r v.escaped).Clean
  | .bool _, _ | .int _, _ => rfl
  | .str s, _ => by
    obtain ⟨t, ht, -⟩ := Template.parse_escape s
    rw [escaped, validateExpr, ht]
    rfl
  | .arr items, h => clean_validateItems_escaped "" 0 items h
  | .obj fields, h => by
    obtain ⟨⟨href, hfn⟩, hfields⟩ := isLiteral_obj_iff.mp h
    rw [escaped, validateExpr, href, hfn]
    exact clean_validateFields_escaped fields hfields
  | .null, h | .float _, h => by cases h

private theorem clean_validateItems_escaped : (label : Text) → (index : Nat) → (items : List Json) →
    areLiteral items = true → (validateItems r label index (escapedItems items)).Clean
  | _, _, [], _ => rfl
  | label, index, item :: rest, h => by
    obtain ⟨hitem, hrest⟩ := Bool.and_eq_true_iff.mp h
    exact clean_validateItems_cons.mpr ⟨clean_validateExpr_escaped item hitem,
      clean_validateItems_escaped label (index + 1) rest hrest⟩

private theorem clean_validateFields_escaped : (fields : List (Text × Json)) →
    membersAreLiteral fields = true → (validateFields r (escapedMembers fields)).Clean
  | [], _ => rfl
  | (key, item) :: rest, h => by
    obtain ⟨hitem, hrest⟩ := Bool.and_eq_true_iff.mp h
    exact clean_validateFields_cons.mpr ⟨clean_validateExpr_escaped item hitem,
      clean_validateFields_escaped rest hrest⟩
end

mutual
/-- The expression built from escaped literal data denotes the data. -/
private theorem builds_escaped : (v : Json) → v.isLiteral = true →
    Builds (buildExpr v.escaped) fun e => e.Denotes v
  | .bool b, _ => ⟨.bool b, rfl, fun _ _ => trivial, fun _ _ => ⟨.bool b, rfl, rfl⟩⟩
  | .int n, _ => ⟨.int n, rfl, fun _ _ => trivial, fun _ _ => ⟨.int n, rfl, rfl⟩⟩
  | .str s, _ => by
    obtain ⟨t, ht, hconstant⟩ := Template.parse_escape s
    refine ⟨.template t, ?_, Expr.denotes_template hconstant⟩
    rw [escaped, buildExpr, buildTemplate, ht]
    rfl
  | .arr items, h => by
    rw [escaped, buildExpr]
    exact (builds_escapedItems items h).map fun _ hitems => Expr.denotes_list hitems
  | .obj fields, h => by
    obtain ⟨⟨href, hfn⟩, hfields⟩ := isLiteral_obj_iff.mp h
    rw [escaped, buildExpr, href, hfn]
    exact (builds_escapedMembers fields hfields).map fun _ hbuilt => Expr.denotes_record hbuilt
  | .null, h | .float _, h => by cases h

private theorem builds_escapedItems : (items : List Json) → areLiteral items = true →
    Builds (buildItems (escapedItems items)) fun built => List.Forall₂ Expr.Denotes built items
  | [], _ => .pure .nil
  | item :: rest, h => by
    obtain ⟨hitem, hrest⟩ := Bool.and_eq_true_iff.mp h
    rw [escapedItems, buildItems]
    exact (builds_escaped item hitem).bind fun e he =>
      (builds_escapedItems rest hrest).bind fun others hothers => .pure (.cons he hothers)

private theorem builds_escapedMembers : (fields : List (Text × Json)) →
    membersAreLiteral fields = true →
    Builds (buildFields (escapedMembers fields)) fun built =>
      List.Forall₂ Expr.DenotesMember built fields
  | [], _ => .pure .nil
  | (key, item) :: rest, h => by
    obtain ⟨hitem, hrest⟩ := Bool.and_eq_true_iff.mp h
    rw [escapedMembers, buildFields]
    exact (builds_escaped item hitem).bind fun e he =>
      (builds_escapedMembers rest hrest).bind fun others hothers =>
        .pure (.cons ⟨rfl, he⟩ hothers)
end

/-! The document. -/

/-- A document has one rule. This is an endpoint with a URL and properties, but without conditions
and headers. The URL has no placeholders, and everything around the rule is valid. -/
structure OneEndpoint (fields rule endpoint : List (Text × Json)) (url : Text)
    (properties : List (Text × Json)) : Prop where
  version_ok : ((Fields.get? "version" fields).getD .null).isString = true
  parameters_ok : (validateDeclarations ((Fields.get? "parameters" fields).getD (.obj []))).Clean
  rules_eq : Fields.get? "rules" fields = some (.arr [.obj rule])
  kind_eq : ruleKind? ((Fields.get? "type" rule).getD .null) = some .endpoint
  documentation_ok : ∀ v, Fields.get? "documentation" rule = some v → v.isString = true
  conditions_eq : (Fields.get? "conditions" rule).getD (.arr []) = .arr []
  endpoint_eq : Fields.get? "endpoint" rule = some (.obj endpoint)
  url_eq : ∃ source t, Fields.get? "url" endpoint = some (.str source) ∧
    Template.parse source = .ok t ∧ t.IsConstantOf url
  properties_eq : Fields.get? "properties" endpoint = some (.obj properties)
  headers_eq : (Fields.get? "headers" endpoint).getD (.obj []) = .obj []

variable {fields rule endpoint x : List (Text × Json)} {url : Text}

private theorem OneEndpoint.valid_endpoint
    (h : OneEndpoint fields rule endpoint url (escapedMembers x))
    (hx : (Json.obj x).isLiteral = true) : (validateEndpoint r (.obj endpoint)).Clean := by
  obtain ⟨source, t, hsource, ht, -⟩ := h.url_eq
  have hurl : (validateUrl r endpoint).Clean := by
    have hexpr : (validateExpr r (.str source)).Clean := by
      rw [validateExpr, ht]
      rfl
    rw [validateUrl, hsource]
    exact ((regular_validateExpr _).discard.clean_within_iff _).mpr
      ((regular_validateExpr _).clean_discard_iff.mpr hexpr)
  have hproperties : (validateProperties r (.obj (escapedMembers x))).Clean :=
    (regular_validateExpr _).clean_discard_iff.mpr (clean_validateExpr_escaped (.obj x) hx)
  rw [clean_validateEndpoint_iff, h.properties_eq, h.headers_eq]
  exact ⟨hurl, hproperties, rfl⟩

private theorem OneEndpoint.valid_rule
    (h : OneEndpoint fields rule endpoint url (escapedMembers x))
    (hx : (Json.obj x).isLiteral = true) : (validateRule r (.obj rule)).Clean := by
  rw [clean_validateRule_iff h.kind_eq]
  refine ⟨?_, ?_, ?_⟩
  · cases hget : Fields.get? "documentation" rule with
    | none =>
      rw [validateText, hget]
      rfl
    | some v =>
      rw [validateText, hget, Inspection.clean_require_iff]
      exact h.documentation_ok v hget
  · rw [validateRuleConditions, h.conditions_eq]
    rfl
  · rw [validateRuleBody, h.endpoint_eq]
    exact ((regular_validateEndpoint _).clean_within_iff _).mpr (h.valid_endpoint hx)

private theorem OneEndpoint.valid (h : OneEndpoint fields rule endpoint url (escapedMembers x))
    (hx : (Json.obj x).isLiteral = true) : (validateRuleSet r (.obj fields)).Clean := by
  have hrules : (validateRules r 0 [.obj rule]).Clean := by
    rw [validateRules, ((regular_validateRule _).within _).clean_bind_iff fun _ =>
      regular_validateRules 1 [], (regular_validateRule _).clean_within_iff]
    exact ⟨h.valid_rule hx, rfl⟩
  rw [clean_validateRuleSet_iff, h.rules_eq]
  exact ⟨h.version_ok, h.parameters_ok, hrules⟩

/-- No object of properties in the document looks like a reference or a call. -/
private theorem OneEndpoint.closed (h : OneEndpoint fields rule endpoint url (escapedMembers x))
    (hx : (Json.obj x).isLiteral = true) {raw : Json} (hin : RuleIn (.obj fields) raw) :
    ¬ HasOpenProperties raw := by
  obtain ⟨⟨href, hfn⟩, -⟩ := isLiteral_obj_iff.mp hx
  obtain ⟨fields', rules, top, hfields, hrules, htop, hwithin⟩ := hin
  cases hfields
  cases h.rules_eq.symm.trans hrules
  obtain rfl := List.mem_singleton.mp htop
  cases hwithin with
  | here =>
    rintro ⟨rule', endpoint', properties, hrule, -, hendpoint, hproperties, hkey⟩
    cases hrule
    cases h.endpoint_eq.symm.trans hendpoint
    cases h.properties_eq.symm.trans hproperties
    simp [Fields.hasKey, href, hfn] at hkey
  | child hkind _ _ _ => cases h.kind_eq.symm.trans hkind

/-- The rule that is built has no conditions, and its properties denote the data. -/
private theorem OneEndpoint.rules_of_build
    (h : OneEndpoint fields rule endpoint url (escapedMembers x))
    (hx : (Json.obj x).isLiteral = true) {rs : RuleSet}
    (hb : RuleSet.build (.obj fields) = .ok rs) :
    ∃ head t properties, rs.rules = [.endpoint head ⟨.template t, properties, []⟩] ∧
      head.conditions = [] ∧ t.IsConstantOf url ∧
      List.Forall₂ Expr.DenotesMember properties x := by
  obtain ⟨_, _, rules, hfields, -, hrules, -, hbuilt⟩ := RuleSet.build_ok hb
  cases hfields
  cases h.rules_eq.symm.trans hrules
  obtain ⟨source, t, hsource, ht, hconstant⟩ := h.url_eq
  obtain ⟨built, hproperties, hdenotes⟩ :=
    builds_escapedMembers x (isLiteral_obj_iff.mp hx).2
  simp only [buildRules, buildRule, h.conditions_eq, Outcome.bind_ok_iff] at hbuilt
  obtain ⟨first, ⟨_, hraws, _, hconditions, documentation, -, kind, hkind, hfirst⟩, _, hothers,
    hall⟩ := hbuilt
  cases hraws
  cases hconditions
  cases hothers
  have hendpoint : ruleKind? kind = some .endpoint := by
    rw [← h.kind_eq, need_ok hkind]
    rfl
  simp only [hendpoint, Outcome.bind_ok_iff] at hfirst
  obtain ⟨raw, hraw, body, hbody, hfirst⟩ := hfirst
  cases h.endpoint_eq.symm.trans (need_ok hraw)
  simp only [buildEndpoint, Outcome.bind_ok_iff] at hbody
  obtain ⟨_, hmembers, rawUrl, hrawUrl, e, he, _, hentries, properties, hbuiltProperties, _,
    hrawHeaders, _, hheaders, hbody⟩ := hbody
  cases hmembers
  rw [h.properties_eq] at hentries
  cases hentries
  rw [h.headers_eq] at hrawHeaders
  cases hrawHeaders
  cases hheaders
  cases hproperties.symm.trans hbuiltProperties
  cases hsource.symm.trans (need_ok hrawUrl)
  have hbuiltUrl : buildExpr (.str source) = .ok (.template t) := by
    rw [buildExpr, buildTemplate, ht]
    rfl
  cases hbuiltUrl.symm.trans he
  cases hbody
  cases hfirst
  exact ⟨_, t, built, (Except.ok.inj hall).symm, rfl, hconstant, hdenotes⟩

end Document

/-! Resolution. -/

namespace WalkContext
variable {ctx : WalkContext} {env : Environment} {path : Text}

private theorem properties_of_denotes {properties : List (Text × Expr)} {x : List (Text × Json)}
    (h : List.Forall₂ Expr.DenotesMember properties x) :
    (ctx.properties env path properties).outcome = .ok x := by
  induction h with
  | nil => rfl
  | @cons property entry properties entries hfirst _ ih =>
    obtain ⟨name, e⟩ := property
    obtain ⟨name', v⟩ := entry
    obtain ⟨rfl, -, hvalue⟩ := hfirst
    obtain ⟨w, hw, rfl⟩ := hvalue ctx.registry env
    rw [WalkContext.properties, Noted.outcome_bind_of_ok hw]
    dsimp only
    rw [Noted.outcome_bind_of_ok ih]
    rfl

private theorem endpoint_of_denotes {t : Template} {url : Text} (ht : t.IsConstantOf url)
    {properties : List (Text × Expr)} {x : List (Text × Json)}
    (h : List.Forall₂ Expr.DenotesMember properties x) :
    (ctx.endpoint env path ⟨.template t, properties, []⟩).outcome = .ok (.endpoint url [] x) := by
  have hurl : ((Expr.template t).evalText ctx.registry env (path ++ ".endpoint.url")).outcome =
      .ok url := by
    have heval : ((Expr.template t).eval ctx.registry env).outcome = .ok (some (.string url)) := by
      rw [Expr.eval, Noted.outcome_ofExcept, Expr.evalTemplate, if_pos ht.1, ht.2]
      rfl
    rw [Expr.evalText, Noted.outcome_bind_of_ok heval]
    rfl
  have hheaders : (ctx.headers env path []).outcome = .ok [] := rfl
  rw [endpoint, Noted.outcome_bind_of_ok hurl, Noted.outcome_bind_of_ok hheaders,
    Noted.outcome_bind_of_ok (properties_of_denotes h)]
  rfl

end WalkContext

namespace Resolver
open Document Json
variable {fields rule endpoint x : List (Text × Json)} {url : Text}

/-- Properties that are escaped literal data are accepted and come back as the data, whatever the
parameters are bound to. -/
theorem resolve_literal (hx : (Json.obj x).isLiteral = true)
    (h : OneEndpoint fields rule endpoint url (escapedMembers x)) (r : Registry) :
    ∃ rs, RuleSet.load r (.obj fields) = .ok rs ∧
      ∀ (res : Resolver) (arguments : List (Text × Argument)) (frame : Frame),
        res.ruleSet = rs → (res.bind arguments).outcome = .ok frame →
        (res.resolve arguments).outcome = .ok (.endpoint url [] x) := by
  have hvalid : (validateRuleSet r (.obj fields)).Clean := h.valid hx
  obtain ⟨rs, hbuilt, hnames⟩ := RuleSet.builds_of_valid hvalid fun raw => h.closed hx
  obtain ⟨head, t, properties, hrules, hconditions, hconstant, hdenotes⟩ :=
    h.rules_of_build hx hbuilt
  have hfits : rs.root.Fits r (TyEnv.ofParameters rs.parameters) := by
    rw [RuleSet.root, hrules]
    refine ⟨trivial, ⟨?_, ?_⟩, trivial⟩
    · rw [hconditions]
      trivial
    · intro e he
      rcases EndpointBody.mem_exprs.mp he with rfl | ⟨property, hproperty, rfl⟩ | ⟨_, hheader, _⟩
      · exact (Expr.denotes_template hconstant).1 r _
      · have hrecord := (Expr.denotes_record hdenotes).1 r
          ((TyEnv.ofParameters rs.parameters).after r head.conditions)
        exact (Expr.fieldsFit_iff properties).mp hrecord property hproperty
      · cases hheader
  refine ⟨rs, RuleSet.load_of_fits hvalid hbuilt hnames hfits, ?_⟩
  rintro res arguments frame rfl hframe
  have hbound : ((res.bind arguments).mapError ResolveError.bind).outcome = .ok frame := by
    rw [Noted.outcome_mapError, hframe]
    rfl
  have hrule : (res.context.tryRules (.ofFrame frame) res.ruleSet.rules).outcome =
      .ok (some (.endpoint url [] x)) := by
    have hnone : (Rule.endpoint head ⟨.template t, properties, []⟩).conditions = [] := hconditions
    rw [hrules, WalkContext.outcome_tryRules_cons, WalkContext.outcome_tryRule, hnone,
      Environment.behind_of_holds rfl, WalkContext.enter,
      Noted.outcome_bind_of_ok (WalkContext.endpoint_of_denotes hconstant hdenotes)]
    rfl
  rw [resolve, Noted.outcome_bind_of_ok hbound, resolveBound, WalkContext.outcome_walk, hrule]

/-- Data of all kinds, with braces in a text and in a key. -/
def literalProperties : List (Text × Json) :=
  [("text", .str "\x7bRegion\x7d"), ("flag", .bool true), ("count", .int 1),
    ("\x7bkey\x7d", .arr [.str "", .obj [("nested", .int (-2)), ("empty", .arr [])]])]

def literalEndpoint : List (Text × Json) :=
  [("url", .str "https://a.b"), ("properties", .obj (escapedMembers literalProperties))]

def literalRule : List (Text × Json) :=
  [("type", .str "endpoint"), ("endpoint", .obj literalEndpoint)]

def literalDocument : List (Text × Json) :=
  [("version", .str "1.0"),
    ("parameters", .obj [("Region", .obj [("type", .str "String"), ("default", .str "eu")])]),
    ("rules", .arr [.obj literalRule])]

theorem resolve_literal_sample :
    (Json.obj literalProperties).isLiteral = true ∧
    OneEndpoint literalDocument literalRule literalEndpoint "https://a.b"
      (escapedMembers literalProperties) ∧
    ∃ rs frame, RuleSet.load .standard (.obj literalDocument) = .ok rs ∧
      ((ofRuleSet rs).bind []).outcome = .ok frame ∧
      ((ofRuleSet rs).resolve []).outcome = .ok (.endpoint "https://a.b" [] literalProperties) := by
  have hx : (Json.obj literalProperties).isLiteral = true := rfl
  have h : OneEndpoint literalDocument literalRule literalEndpoint "https://a.b"
      (escapedMembers literalProperties) := by
    constructor
    case url_eq => exact ⟨"https://a.b", ⟨"https://a.b", [.text "https://a.b"]⟩, rfl, rfl, rfl, rfl⟩
    case documentation_ok =>
      intro v hv
      cases hv
    all_goals rfl
  obtain ⟨rs, hload, hresolve⟩ := resolve_literal hx h .standard
  have hbinds : (RuleSet.load .standard (.obj literalDocument)).toOption.map
      (fun rs => ((ofRuleSet rs).bind []).outcome.isOk) = some true := by
    decide +kernel
  rw [hload] at hbinds
  have hbinds : ((ofRuleSet rs).bind []).outcome.isOk = true := Option.some.inj hbinds
  cases hframe : ((ofRuleSet rs).bind []).outcome with
  | ok frame => exact ⟨hx, h, rs, frame, hload, hframe, hresolve _ [] frame rfl hframe⟩
  | error e =>
    rw [hframe] at hbinds
    cases hbinds

end Resolver
end EndpointRules
