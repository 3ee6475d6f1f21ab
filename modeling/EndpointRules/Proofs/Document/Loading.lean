import EndpointRules.Proofs.Document.Buildable

/-! Loading a document ends in a rule set or in a report of defects. Two shapes are the exception: a
coercion that cannot be looked up, and properties whose entries nobody has looked at. -/

namespace EndpointRules
namespace Document
open Inspection
variable {r : Registry}

/-! The parts of a declaration. -/

private theorem builds_notice {fields : List (Text × Json)} (h : (validateNotice fields).Clean) :
    Builds (buildDeprecation ((Fields.get? "deprecated" fields).getD .null)) fun _ => True := by
  cases hget : Fields.get? "deprecated" fields with
  | none => exact .pure trivial
  | some deprecated =>
    rw [validateNotice, hget] at h
    cases deprecated with
    | obj details =>
      have hparts : (validateText "message" "deprecated.message" details >>= fun _ =>
          validateText "since" "deprecated.since" details).Clean := h
      have htext (key label : Text) : (validateText key label details).Regular fun _ => False :=
        regular_validateText key label details
      obtain ⟨hmessage, hsince⟩ := ((htext _ _).clean_bind_iff fun _ => htext _ _).mp hparts
      exact (builds_text (isString_of_clean hmessage)).bind fun _ _ =>
        (builds_text (isString_of_clean hsince)).bind fun _ _ => .pure trivial
    | bool flag => cases flag <;> exact .pure trivial
    | _ => exact .pure trivial

private theorem builds_coercion {fields : List (Text × Json)}
    (h : (validateGivenCoercion fields).Clean) :
    Builds (buildCoercion fields) fun _ => True := by
  unfold buildCoercion text?
  cases hget : Fields.get? "coerce" fields with
  | none => exact .pure trivial
  | some c =>
    rw [validateGivenCoercion, hget] at h
    cases c with
    | str s =>
      have h := (clean_requireKnown_iff _ _ _).mp h
      obtain ⟨coercion, hcoercion⟩ := Option.isSome_iff_exists.mp h
      have hknown : Coercion.ofText? s = some coercion := hcoercion
      refine ⟨some coercion, ?_, trivial⟩
      simp only [Outcome.bind_ok_iff]
      refine ⟨some s, rfl, ?_⟩
      simp only [hknown]
      rfl
    | arr items => exact absurd h (not_clean_throw _)
    | obj members => exact absurd h (not_clean_throw _)
    | _ => cases (clean_requireKnown_iff _ _ _).mp h

private theorem builds_flag {key : Text} {fields : List (Text × Json)}
    (h : ((Fields.get? key fields).getD (.bool false)).isBool = true) :
    Builds (buildFlag key fields) fun _ => True := by
  unfold buildFlag
  cases hget : (Fields.get? key fields).getD (.bool false) with
  | bool b => exact .pure trivial
  | _ =>
    rw [hget] at h
    cases h

/-- A valid default has a value. -/
private theorem builds_default {required : Json} {type : ParameterType}
    {fields : List (Text × Json)}
    (h : (validateGivenDefault required (some type) fields).Clean) :
    ∃ v, (Argument.ofJson ((Fields.get? "default" fields).getD .null)).toValue = .ok v := by
  cases hget : Fields.get? "default" fields with
  | none => exact ⟨none, rfl⟩
  | some default =>
    have hfit := clean_validateDefault_of_given h hget
    obtain ⟨v, hv, -⟩ := value_of_clean_default hfit
    exact ⟨some v, hv⟩

private theorem builds_parameter {name : Text} {raw : Json}
    (h : (validateParameter name raw).Clean) :
    Builds (buildParameter name raw) fun _ => True := by
  cases raw with
  | obj fields =>
    obtain ⟨-, htype, hrequired, hgiven, hextras⟩ := (clean_validateParameter_iff name fields).mp h
    obtain ⟨htext, hdocs, hnotice, hcoercion⟩ := (clean_validateExtras_iff fields).mp hextras
    obtain ⟨type, htype⟩ := Option.isSome_iff_exists.mp htype
    rw [htype] at hgiven
    have hneed : need "type" fields = .ok ((Fields.get? "type" fields).getD .null) := by
      apply need_of_getD
      intro hnull
      rw [hnull] at htype
      cases htype
    obtain ⟨deprecated, hdeprecated, -⟩ := builds_notice hnotice
    obtain ⟨required, hrequired, -⟩ := builds_flag hrequired
    obtain ⟨default, hdefault⟩ := builds_default hgiven
    obtain ⟨builtIn, hbuiltIn, -⟩ := builds_text (isString_of_clean htext)
    obtain ⟨documentation, hdocumentation, -⟩ := builds_text (isString_of_clean hdocs)
    obtain ⟨coerce, hcoerce, -⟩ := builds_coercion hcoercion
    refine ⟨⟨name, type, required, default, builtIn, deprecated, documentation, coerce⟩, ?_,
      trivial⟩
    simp only [buildParameter, Outcome.bind_ok_iff]
    refine ⟨fields, rfl, deprecated, hdeprecated, _, hneed, ?_⟩
    rw [htype]
    simp only [Outcome.bind_ok_iff, Outcome.mapError_ok_iff]
    exact ⟨type, rfl, required, hrequired, default, hdefault, builtIn, hbuiltIn, documentation,
      hdocumentation, coerce, hcoerce, rfl⟩
  | _ =>
    have hname : (Inspection.require (Text.isIdent name.toList)
        "Parameter name must be an identifier" (.str name)).Regular fun _ => False :=
      regular_require _ _ _
    have hdefect (v : Json) (_ : Unit) :
        (Inspection.defect "Parameter must be an object" v).Regular fun _ => False :=
      regular_defect _ v
    exact absurd ((hname.clean_bind_iff (hdefect _)).mp h).2 (not_clean_defect _ _)

private theorem builds_parameters {raws : List (Text × Json)}
    (h : (validateParameters raws).Clean) :
    Builds (buildParameters raws) fun _ => True := by
  induction raws with
  | nil => exact .pure trivial
  | cons raw rest ih =>
    rw [validateParameters, ((regular_validateParameter _ _).within _).clean_bind_iff fun _ =>
      regular_validateParameters rest, (regular_validateParameter _ _).clean_within_iff] at h
    exact (builds_parameter h.1).bind fun _ _ => (ih h.2).bind fun _ _ => .pure trivial

/-! The whole document. -/

/-- A rule stands in a document: among the rules at the top, or below a tree rule. -/
def RuleIn (document raw : Json) : Prop :=
  ∃ fields rules top, document = .obj fields ∧ Fields.get? "rules" fields = some (.arr rules) ∧
    top ∈ rules ∧ RawWithin raw top

end Document

namespace RuleSet
open Document
variable {r : Registry} {document : Json}

private theorem need_of_version {fields : List (Text × Json)}
    (h : ((Fields.get? "version" fields).getD .null).isString = true) :
    ∃ version, need "version" fields = .ok (.str version) := by
  have hneed : need "version" fields = .ok ((Fields.get? "version" fields).getD .null) := by
    apply need_of_getD
    intro hnull
    rw [hnull] at h
    cases h
  rw [hneed]
  cases hv : (Fields.get? "version" fields).getD .null with
  | str version => exact ⟨version, rfl⟩
  | _ =>
    rw [hv] at h
    cases h

private theorem rules_of_clean {fields : List (Text × Json)}
    (h : (validateTopRules r ((Fields.get? "rules" fields).getD .null)).Clean) :
    ∃ raws, Fields.get? "rules" fields = some (.arr raws) ∧ (validateRules r 0 raws).Clean := by
  unfold validateTopRules at h
  split at h
  · next first others hraws =>
    cases hget : Fields.get? "rules" fields with
    | none =>
      rw [hget] at hraws
      cases hraws
    | some v =>
      rw [hget, Option.getD_some] at hraws
      exact ⟨first :: others, congrArg some hraws, h⟩
  · exact absurd h (Inspection.not_clean_within_defect _ _ _)

/-- A valid document without open properties can be built, and all names in its rules can be looked
up. -/
theorem builds_of_valid (h : (validateRuleSet r document).Clean)
    (hclosed : ∀ raw, RuleIn document raw → ¬ HasOpenProperties raw) :
    Builds (build document) fun rs => rs.root.breakdown? = none := by
  cases document with
  | obj fields =>
    obtain ⟨hversion, hparameters, hrules⟩ := (clean_validateRuleSet_iff fields).mp h
    have hentries : ∃ entries, members ((Fields.get? "parameters" fields).getD (.obj [])) =
        .ok entries ∧ Builds (buildParameters entries) fun _ => True := by
      cases hget : (Fields.get? "parameters" fields).getD (.obj []) with
      | obj entries =>
        rw [hget] at hparameters
        exact ⟨entries, rfl, builds_parameters hparameters⟩
      | _ =>
        rw [hget] at hparameters
        exact absurd hparameters (Inspection.not_clean_defect _ _)
    obtain ⟨version, hneedVersion⟩ := need_of_version hversion
    obtain ⟨entries, hmembers, parameters, hbuilt, -⟩ := hentries
    obtain ⟨raws, hget, hclean⟩ := rules_of_clean hrules
    obtain ⟨rules, hbuiltRules, hsearch⟩ := builds_rules Rule.rootPath 0 0 raws hclean
      fun top htop raw hwithin => hclosed raw ⟨fields, raws, top, rfl, hget, htop, hwithin⟩
    refine ⟨⟨version, parameters, rules⟩, ?_, ?_⟩
    · simp only [build, Outcome.bind_ok_iff]
      exact ⟨fields, rfl, entries, hmembers, parameters, hbuilt, .arr raws, need_of_get? hget, raws,
        rfl, rules, hbuiltRules, .str version, hneedVersion, rfl⟩
    · have hroot : (Rule.root rules).breakdown? = Rule.anyBreakdown? rules := by
        rw [Rule.root, Rule.breakdown?]
        rfl
      exact hroot.trans hsearch
  | _ => exact absurd h (Inspection.not_clean_defect _ _)

/-- The structure of a document has its defects reported, or the look at it is broken off. -/
private theorem structureErrors_cases (document : Json) :
    (∃ errors, structureErrors r document = .ok errors) ∨
      ∃ b, structureErrors r document = .error (.breakdown b) ∧ Disturbs document b := by
  unfold structureErrors
  rcases regular_validateRuleSet (r := r) document with ⟨_, found, hfound⟩ | ⟨b, hbreaks, hb⟩
  · rw [hfound.errors_eq]
    exact .inl ⟨_, rfl⟩
  · rw [hbreaks.errors_eq]
    exact .inr ⟨b, rfl, hb⟩

private theorem structureErrors_eq_nil_iff :
    structureErrors r document = .ok [] ↔ (validateRuleSet r document).Clean :=
  Outcome.mapError_ok_iff

private theorem analyze_cases {rs : RuleSet} (h : rs.root.breakdown? = none) :
    analyze r rs = .ok () ∨ ∃ errors, analyze r rs = .error (.schema errors) := by
  unfold analyze refuse
  rw [h]
  cases hempty : (rs.check r).errors.isEmpty with
  | true => exact .inl rfl
  | false => exact .inr ⟨(rs.check r).errors, rfl⟩

/-- Loading a valid document is the analysis of the rules built from it. -/
theorem load_of_valid {rs : RuleSet} (hvalid : (validateRuleSet r document).Clean)
    (hbuilt : build document = .ok rs) :
    load r document = (analyze r rs >>= fun _ => pure rs) := by
  rw [load, structureErrors_eq_nil_iff.mpr hvalid, hbuilt]
  rfl

/-- A valid document is loaded if the rules built from it fit the scope of the parameters. -/
theorem load_of_fits {rs : RuleSet} (hvalid : (validateRuleSet r document).Clean)
    (hbuilt : build document = .ok rs) (hnames : rs.root.breakdown? = none)
    (hfits : rs.root.Fits r (TyEnv.ofParameters rs.parameters)) : load r document = .ok rs := by
  have hchecked : (rs.check r).errors = [] := (Rule.clean_check_iff _ _).mpr hfits
  have hanalyzed : analyze r rs = .ok () := by
    rw [analyze, hnames, hchecked]
    rfl
  rw [load_of_valid hvalid hbuilt, hanalyzed]
  rfl

/-- Loading any document gives a rule set or reports defects. It is broken off only by a text with
too many digits in a row or a number with too many digits, or because a coercion is an array or an
object. Only an endpoint rule with open properties is an exception from this. -/
theorem load_settles (r : Registry) (document : Json) :
    (∃ rs, load r document = .ok rs) ∨ (∃ errors, load r document = .error (.schema errors)) ∨
      (∃ b, load r document = .error (.breakdown b) ∧
        (document.Explains b ∨ HasOpenCoercion document b)) ∨
      ∃ raw, RuleIn document raw ∧ HasOpenProperties raw := by
  rcases structureErrors_cases (r := r) document with ⟨errors, hstructure⟩ | ⟨b, hbroken, hb⟩
  · by_cases hopen : ∃ raw, RuleIn document raw ∧ HasOpenProperties raw
    · exact .inr (.inr (.inr hopen))
    cases errors with
    | cons first others =>
      refine .inr (.inl ⟨first :: others, ?_⟩)
      rw [load, hstructure]
      rfl
    | nil =>
      have hvalid := structureErrors_eq_nil_iff.mp hstructure
      obtain ⟨rs, hbuild, hnames⟩ :=
        builds_of_valid hvalid fun raw hin hproperties => hopen ⟨raw, hin, hproperties⟩
      have hload := load_of_valid hvalid hbuild
      rcases analyze_cases (r := r) hnames with hok | ⟨errors, herror⟩
      · exact .inl ⟨rs, by rw [hload, hok]; rfl⟩
      · exact .inr (.inl ⟨errors, by rw [hload, herror]; rfl⟩)
  · refine .inr (.inr (.inl ⟨b, ?_, hb⟩))
    rw [load, hbroken]
    rfl

def ruleOfMessage (message : Json) : Json := .obj [("type", .str "error"), ("error", message)]

theorem breaks_of_message {message : Json} {b : Breakdown} (h : (validateExpr r message).Breaks b) :
    (validateRule r (ruleOfMessage message)).Breaks b := by
  have hrule : validateRule r (ruleOfMessage message) =
      Inspection.within "error" (discard (validateExpr r message)) := rfl
  exact hrule ▸ (h.bind _).within "error"

def documentOfRules (rules : List Json) : Json :=
  .obj [("version", .str "1.0"), ("rules", .arr rules)]

/-- A document breaks the look at it off if its first rule does. -/
theorem breaks_of_first {rule : Json} {others : List Json} {b : Breakdown}
    (h : (validateRule r rule).Breaks b) :
    (validateRuleSet r (documentOfRules (rule :: others))).Breaks b := by
  have hdocument : validateRuleSet r (documentOfRules (rule :: others)) = (do
      Inspection.within "version" (pure ())
      Inspection.within "parameters" (pure ())
      Inspection.within "rules[0]" (validateRule r rule)
      validateRules r 1 others) := rfl
  rw [hdocument]
  refine ((Inspection.finds_pure ()).within _).bind_breaks ?_
  refine ((Inspection.finds_pure ()).within _).bind_breaks ?_
  exact (h.within _).bind _

/-- Neither a rule set nor a report comes of a message with a path that cannot be read. -/
theorem load_longTemplate : ∃ n, load .standard (documentOfRules [ruleOfMessage longTemplate]) =
    .error (.breakdown (.longNumeral n)) := by
  obtain ⟨n, -, hthrow⟩ := validateExpr_longTemplate .standard
  have hmessage : (validateExpr .standard longTemplate).Breaks (.longNumeral n) :=
    hthrow ▸ Inspection.breaks_throw _
  refine ⟨n, ?_⟩
  rw [load, structureErrors, (breaks_of_first (breaks_of_message hmessage)).errors_eq]
  rfl

end RuleSet
end EndpointRules
