import EndpointRules.Proofs.Document.Regular
import EndpointRules.Proofs.Outcome
import EndpointRules.Proofs.Scope.Fits
import EndpointRules.Resolver

/-! What is known of a rule set once it has been loaded: its rules fit the declared parameters,
every tree rule has a rule below it, and every default is a value of its parameter's type. -/

namespace EndpointRules
open Document Outcome
variable {r : Registry} {document : Json} {rs : RuleSet}

namespace Rule

mutual
/-- Every tree rule has a rule below it. -/
def Branching : Rule → Prop
  | .endpoint _ _ | .error _ _ => True
  | .tree _ rules => rules ≠ [] ∧ AllBranching rules

def AllBranching : List Rule → Prop
  | [] => True
  | rule :: rest => rule.Branching ∧ AllBranching rest
end

theorem allBranching_iff {rules : List Rule} :
    AllBranching rules ↔ ∀ rule ∈ rules, rule.Branching := by
  induction rules with
  | nil => simp [AllBranching]
  | cons rule rest ih => simp [AllBranching, ih]

end Rule

/-- A declared default is a value of the type of its parameter. -/
def Parameter.DefaultFits (p : Parameter) : Prop :=
  ∀ v, p.default = some v → p.type.accepts v = true

namespace RuleSet

/-- What the three passes of loading leave behind. -/
structure Loaded (r : Registry) (document : Json) (rs : RuleSet) : Prop where
  valid : (validateRuleSet r document).Clean
  built : build document = .ok rs
  checked : (rs.check r).Clean

private theorem refuse_ok_iff (errors : List Diagnostic) :
    refuse errors = .ok () ↔ errors = [] := by
  cases errors <;> simp [refuse]

theorem loaded_of_load (h : load r document = .ok rs) : Loaded r document rs := by
  simp only [load, bind_ok_iff, mapError_ok_iff] at h
  obtain ⟨errors, hs, _, hr, built, hb, _, ha, hrs⟩ := h
  cases hrs
  refine ⟨?_, hb, ?_⟩
  · rw [(refuse_ok_iff errors).mp hr] at hs
    exact mapError_ok_iff.mp hs
  · unfold analyze at ha
    split at ha
    · cases ha
    · exact (refuse_ok_iff _).mp ha

/-- The rules of a loaded rule set fit the scope of its parameters. -/
theorem Loaded.root_fits (h : Loaded r document rs) :
    rs.root.Fits r (TyEnv.ofParameters rs.parameters) :=
  (Rule.clean_check_iff _ _).mp h.checked

theorem Loaded.rules_fit (h : Loaded r document rs) :
    Rule.AllFit r (TyEnv.ofParameters rs.parameters) rs.rules := h.root_fits.2

end RuleSet

namespace Document

/-! Rules below tree rules. -/

theorem need_ok {key : Text} {fields : List (Text × Json)} {v : Json}
    (h : need key fields = .ok v) : Fields.get? key fields = some v := by
  unfold need at h
  split at h
  · next hget => rwa [Except.ok.inj h] at hget
  · cases h

/-- What is built below a tree rule comes from its children. -/
theorem buildRule_obj {path : Text} {fields : List (Text × Json)} {rule : Rule}
    (h : buildRule path (.obj fields) = .ok rule) :
    (∃ head body, rule = .endpoint head body ∧ head.path = path) ∨
    (∃ head message, rule = .error head message ∧ head.path = path) ∨
    ∃ head rules kind, rule = .tree head rules ∧ head.path = path ∧
      Fields.get? "type" fields = some kind ∧ ruleKind? kind ≠ some .endpoint ∧
      ruleKind? kind ≠ some .error ∧ buildChildren path fields = .ok rules := by
  simp only [buildRule, bind_ok_iff] at h
  obtain ⟨raw, -, conditions, -, documentation, -, kind, hkind, h⟩ := h
  have hget : Fields.get? "type" fields = some kind := need_ok hkind
  split at h
  · simp only [bind_ok_iff] at h
    obtain ⟨_, -, body, -, h⟩ := h
    cases h
    exact .inl ⟨_, _, rfl, rfl⟩
  · simp only [bind_ok_iff] at h
    obtain ⟨_, -, message, -, h⟩ := h
    cases h
    exact .inr (.inl ⟨_, _, rfl, rfl⟩)
  · next he hr =>
    simp only [bind_ok_iff] at h
    obtain ⟨rules, hrules, h⟩ := h
    cases h
    exact .inr (.inr ⟨_, _, kind, rfl, rfl, hget, he, hr, hrules⟩)

mutual
/-- A rule that was found valid is built with rules below every tree rule. -/
private theorem branching_buildRule : (path : Text) → (raw : Json) → (rule : Rule) →
    (validateRule r raw).Clean → buildRule path raw = .ok rule → rule.Branching
  | path, .obj fields, rule, hv, hb => by
    obtain ⟨head, body, rfl, -⟩ | ⟨head, message, rfl, -⟩ |
      ⟨head, rules, kind, rfl, -, hget, he, hr, hrules⟩ := buildRule_obj hb
    · trivial
    · trivial
    · have hk : ruleKind? ((Fields.get? "type" fields).getD .null) = some .tree := by
        rw [hget, Option.getD_some]
        unfold validateRule at hv
        rw [hget, Option.getD_some] at hv
        cases hkind : ruleKind? kind with
        | none => simp [hkind] at hv
        | some kind => cases kind <;> simp_all
      have hchildren : (validateChildren r fields).Clean := ((clean_validateRule_iff hk).mp hv).2.2
      exact branching_buildChildren path fields rules hchildren hrules
  | _, .null, _, _, hb | _, .bool _, _, _, hb | _, .int _, _, _, hb | _, .float _, _, _, hb
  | _, .str _, _, _, hb | _, .arr _, _, _, hb => by simp [buildRule] at hb

private theorem branching_buildChildren : (path : Text) → (fields : List (Text × Json)) →
    (rules : List Rule) → (validateChildren r fields).Clean →
    buildChildren path fields = .ok rules → rules ≠ [] ∧ Rule.AllBranching rules
  | _, [], _, _, hb => by simp [buildChildren] at hb
  | path, (key, raw) :: rest, rules, hv, hb => by
    unfold validateChildren at hv
    unfold buildChildren at hb
    split at hv
    · rw [if_pos ‹_›] at hb
      exact branching_buildRuleArray path raw rules hv hb
    · rw [if_neg ‹_›] at hb
      exact branching_buildChildren path rest rules hv hb

private theorem branching_buildRuleArray : (path : Text) → (raw : Json) → (rules : List Rule) →
    (validateRuleArray r raw).Clean → buildRuleArray path raw = .ok rules →
    rules ≠ [] ∧ Rule.AllBranching rules
  | path, .arr raws, rules, hv, hb => by
    unfold validateRuleArray at hv
    split at hv
    · simp at hv
    · next hne =>
      obtain ⟨hlength, hall⟩ := branching_buildRules path 0 0 raws rules hv hb
      refine ⟨?_, hall⟩
      rintro rfl
      have hnil : raws = [] := List.length_eq_zero_iff.mp hlength.symm
      exact hne (by rw [hnil]; rfl)
  | _, .null, _, _, hb | _, .bool _, _, _, hb | _, .int _, _, _, hb | _, .float _, _, _, hb
  | _, .str _, _, _, hb | _, .obj _, _, _, hb => by simp [buildRuleArray] at hb

private theorem branching_buildRules : (path : Text) → (index position : Nat) → (raws : List Json) →
    (rules : List Rule) → (validateRules r index raws).Clean →
    buildRules path position raws = .ok rules →
    rules.length = raws.length ∧ Rule.AllBranching rules
  | _, _, _, [], _, _, hb => by
    cases hb
    exact ⟨rfl, trivial⟩
  | path, index, position, raw :: rest, rules, hv, hb => by
    rw [validateRules, ((regular_validateRule raw).within _).clean_bind_iff fun _ =>
      regular_validateRules (index + 1) rest, (regular_validateRule raw).clean_within_iff] at hv
    simp only [buildRules, bind_ok_iff] at hb
    obtain ⟨first, hfirst, others, hothers, h⟩ := hb
    cases h
    obtain ⟨hlength, hall⟩ :=
      branching_buildRules path (index + 1) (position + 1) rest others hv.2 hothers
    exact ⟨congrArg (· + 1) hlength, branching_buildRule _ raw first hv.1 hfirst, hall⟩
end

/-! Defaults. -/

private theorem itemValues_texts {items : List Json} (h : items.all Json.isString = true) :
    ∃ texts : List Value, Argument.itemValues (Argument.itemsOfJson items) = .ok (texts.map some) ∧
      texts.all ParameterType.isText = true := by
  induction items with
  | nil => exact ⟨[], rfl, rfl⟩
  | cons item rest ih =>
    obtain ⟨hitem, hrest⟩ := Bool.and_eq_true_iff.mp (List.all_cons ▸ h)
    obtain ⟨texts, htexts, hall⟩ := ih hrest
    cases item with
    | str s =>
      refine ⟨.string s :: texts, ?_, by simp [ParameterType.isText, hall]⟩
      rw [Argument.itemsOfJson, Argument.itemValues, htexts]
      rfl
    | _ => cases hitem

/-- A valid default is a value of the declared type. -/
theorem value_of_clean_default {type : ParameterType} {default : Json}
    (hv : (validateDefault (some type) default).Clean) :
    ∃ v, (Argument.ofJson default).toValue = .ok (some v) ∧ type.accepts v = true := by
  cases type with
  | string =>
    cases default with
    | str s => exact ⟨.string s, rfl, rfl⟩
    | _ => simp [validateDefault, Json.isString] at hv
  | boolean =>
    cases default with
    | bool b => exact ⟨.bool b, rfl, rfl⟩
    | _ => simp [validateDefault, Json.isBool] at hv
  | stringArray =>
    cases default with
    | arr items =>
      rw [validateDefault, Inspection.clean_require_iff] at hv
      obtain ⟨texts, htexts, hall⟩ := itemValues_texts hv
      have hlist : (Argument.ofJson (.arr items)).toValue = .ok (some (.list texts)) := by
        rw [Argument.ofJson, Argument.toValue, htexts]
        simp [bind, Except.bind, pure, Except.pure, List.filterMap_map]
      exact ⟨.list texts, hlist, hall⟩
    | _ => simp [validateDefault] at hv

/-- A default that is given is looked at, whether it may be given or not. -/
theorem clean_validateDefault_of_given {required : Json} {type : Option ParameterType}
    {fields : List (Text × Json)} {default : Json}
    (h : (validateGivenDefault required type fields).Clean)
    (hget : Fields.get? "default" fields = some default) :
    (validateDefault type default).Clean := by
  unfold validateGivenDefault at h
  simp only [hget] at h
  split at h
  · rw [if_pos rfl] at h
    have hdefault : (validateDefault type default).Regular fun _ => False :=
      regular_validateDefault type default
    exact absurd h (Inspection.not_clean_defect_bind _ _ hdefault)
  · exact h

/-- Where the name, the type and the default of a built parameter come from. -/
theorem buildParameter_ok {name : Text} {raw : Json} {p : Parameter}
    (h : buildParameter name raw = .ok p) :
    ∃ fields, raw = .obj fields ∧ p.name = name ∧
      parameterType? ((Fields.get? "type" fields).getD .null) = some p.type ∧
      (Argument.ofJson ((Fields.get? "default" fields).getD .null)).toValue = .ok p.default := by
  cases raw with
  | obj fields =>
    simp only [buildParameter, bind_ok_iff] at h
    obtain ⟨_, hfields, _, -, typeName, hname, h⟩ := h
    cases hfields
    split at h
    · next type htype =>
      simp only [bind_ok_iff, mapError_ok_iff] at h
      obtain ⟨_, hpure, _, -, default, hdefault, _, -, _, -, _, -, h⟩ := h
      cases hpure
      cases h
      refine ⟨fields, rfl, rfl, ?_, hdefault⟩
      rw [need_ok hname]
      exact htype
    · cases h
  | _ => cases h

/-- A declaration that was found valid is built with a default of its type, or without one. -/
private theorem defaultFits_buildParameter {name : Text} {raw : Json} {p : Parameter}
    (hv : (validateParameter name raw).Clean) (hb : buildParameter name raw = .ok p) :
    p.DefaultFits := by
  intro v hp
  obtain ⟨fields, rfl, -, htype, hdefault⟩ := buildParameter_ok hb
  obtain ⟨-, -, -, hgiven, -⟩ := (clean_validateParameter_iff _ _).mp hv
  rw [htype] at hgiven
  cases hget : Fields.get? "default" fields with
  | none =>
    rw [hget, hp] at hdefault
    cases hdefault
  | some default =>
    rw [hget, Option.getD_some, hp] at hdefault
    have hfit := clean_validateDefault_of_given hgiven hget
    obtain ⟨w, hw, haccepts⟩ := value_of_clean_default hfit
    cases hw.symm.trans hdefault
    exact haccepts

private theorem defaultFits_buildParameters {raws : List (Text × Json)}
    {parameters : List Parameter}
    (hv : (validateParameters raws).Clean) (hb : buildParameters raws = .ok parameters) :
    ∀ p ∈ parameters, p.DefaultFits := by
  induction raws generalizing parameters with
  | nil =>
    cases hb
    simp
  | cons raw rest ih =>
    rw [validateParameters, ((regular_validateParameter _ _).within _).clean_bind_iff fun _ =>
      regular_validateParameters rest, (regular_validateParameter _ _).clean_within_iff] at hv
    simp only [buildParameters, bind_ok_iff] at hb
    obtain ⟨first, hfirst, others, hothers, h⟩ := hb
    cases h
    rintro p (_ | ⟨_, hp⟩)
    · exact defaultFits_buildParameter hv.1 hfirst
    · exact ih hv.2 hothers p hp

end Document

namespace RuleSet

/-- Where the parameters and the rules of a built rule set come from. -/
theorem build_ok (h : build document = .ok rs) :
    ∃ fields parameters rules, document = .obj fields ∧
      (Fields.get? "parameters" fields).getD (.obj []) = .obj parameters ∧
      Fields.get? "rules" fields = some (.arr rules) ∧
      buildParameters parameters = .ok rs.parameters ∧
      buildRules Rule.rootPath 0 rules = .ok rs.rules := by
  simp only [build, bind_ok_iff] at h
  obtain ⟨fields, hfields, rawParameters, hp, parameters, hparameters, rawRules, hneed, raws, hr,
    rules, hrules, version, -, h⟩ := h
  cases document with
  | obj members =>
    cases hfields
    cases rawRules with
    | arr _ =>
      cases hr
      split at h
      · cases h
        refine ⟨fields, rawParameters, raws, rfl, ?_, need_ok hneed, hparameters, hrules⟩
        cases hget : (Fields.get? "parameters" fields).getD (.obj []) with
        | obj declared =>
          rw [hget] at hp
          cases hp
          rfl
        | _ =>
          rw [hget] at hp
          cases hp
      · cases h
    | _ => cases hr
  | _ => cases hfields

theorem Loaded.rules_branching (h : Loaded r document rs) : Rule.AllBranching rs.rules := by
  obtain ⟨fields, _, rules, rfl, -, hrules, -, hb⟩ := build_ok h.built
  obtain ⟨-, -, hv⟩ := (clean_validateRuleSet_iff fields).mp h.valid
  rw [hrules, Option.getD_some] at hv
  cases rules with
  | nil => simp [validateTopRules] at hv
  | cons first others => exact (branching_buildRules _ 0 0 _ _ hv hb).2

theorem Loaded.defaults_fit (h : Loaded r document rs) : ∀ p ∈ rs.parameters, p.DefaultFits := by
  obtain ⟨fields, parameters, _, rfl, hparameters, -, hb, -⟩ := build_ok h.built
  obtain ⟨-, hv, -⟩ := (clean_validateRuleSet_iff fields).mp h.valid
  rw [hparameters] at hv
  exact defaultFits_buildParameters hv hb

end RuleSet

/-- The resolver has the standard functions and a rule set that was loaded from the document; its
built-ins and options may be any. -/
structure Resolver.Serves (res : Resolver) (document : Json) : Prop where
  registry_eq : res.registry = .standard
  load_eq : RuleSet.load .standard document = .ok res.ruleSet

theorem Resolver.Serves.loaded {res : Resolver} (h : res.Serves document) :
    RuleSet.Loaded .standard document res.ruleSet := RuleSet.loaded_of_load h.load_eq

/-! A small document: an endpoint below a tree rule that assigns a name, and an error for the rest.
One argument of a call is only known at resolution, and one parameter is not used. -/

def sampleDocument : Json := .obj [
  ("version", .str "1.0"),
  ("parameters", .obj [
    ("Endpoint", .obj [("type", .str "String")]),
    ("Field", .obj [("type", .str "String"), ("default", .str "isIp")]),
    ("Region", .obj [("type", .str "String"), ("default", .str "eu")]),
    ("Spare", .obj [("type", .str "Boolean")])]),
  ("rules", .arr [
    .obj [("type", .str "tree"),
      ("conditions", .arr [.obj [("fn", .str "parseURL"),
        ("argv", .arr [.obj [("ref", .str "Endpoint")]]), ("assign", .str "url")]]),
      ("rules", .arr [.obj [("type", .str "endpoint"),
        ("conditions", .arr [.obj [("fn", .str "not"), ("argv", .arr [.obj [("fn", .str "getAttr"),
          ("argv", .arr [.obj [("ref", .str "url")], .str "\x7bField\x7d"])]])]]),
        ("endpoint", .obj [("url", .str "https://\x7bRegion\x7d.\x7burl#authority\x7d")])]])],
    .obj [("type", .str "error"), ("error", .str "none in \x7bRegion\x7d")]])]

@[irreducible]
def sampleRuleSet : RuleSet :=
  match RuleSet.load .standard sampleDocument with
  | .ok rs => rs
  | .error _ => ⟨"", [], []⟩

theorem sample_loads : RuleSet.load .standard sampleDocument = .ok sampleRuleSet := by
  have hok : (RuleSet.load .standard sampleDocument).isOk = true := by decide +kernel
  obtain ⟨rs, hload⟩ := Outcome.exists_of_isOk hok
  rw [sampleRuleSet, hload]

def sampleResolver : Resolver := .ofRuleSet sampleRuleSet

/-- What the sample is asked for: the named field of an endpoint's URL has to be false. -/
def sampleArguments (field : Text) : List (Text × Argument) :=
  [("Endpoint", .str "https://a.b"), ("Field", .str field)]

/-- The values that the arguments bind. -/
def sampleFrame (field : Text) : Frame :=
  [("Endpoint", some (.string "https://a.b")), ("Field", some (.string field)),
    ("Region", some (.string "eu")), ("Spare", none)]

theorem sampleResolver_serves : sampleResolver.Serves sampleDocument := ⟨rfl, sample_loads⟩

end EndpointRules
