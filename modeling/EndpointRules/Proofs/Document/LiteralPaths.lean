import EndpointRules.Proofs.AttrPath
import EndpointRules.Proofs.Document.Validity
import EndpointRules.Proofs.Resolution.Steps
import EndpointRules.Proofs.Template.Printing
import Mathlib.Data.String.Basic

/-! Attribute paths that are written out in a rule set. A constant path of a loaded rule set can be
read, and then the call of which it is an argument ends as its target does, followed by the path.
The validator takes every path with a brace for one that is only known at resolution; so a path with
an escaped brace gets past it, and so does any path that it does not look at. -/

namespace EndpointRules

namespace Template
variable {source : Text} {t : Template}

private theorem mem_escape {cs : List CodePoint} {c : CodePoint} : c ∈ escape cs ↔ c ∈ cs := by
  induction cs with
  | nil => exact Iff.rfl
  | cons d rest ih => cases hd : isBrace d <;> simp [escape, hd, ih]

theorem escape_of_plain {cs : List CodePoint} (h : ∀ c ∈ cs, isBrace c = false) :
    escape cs = cs := by
  induction cs with
  | nil => rfl
  | cons c rest ih =>
    obtain ⟨hc, hrest⟩ := List.forall_mem_cons.mp h
    rw [escape, hc, ih hrest]
    rfl

/-- The source of a constant is its text with the braces doubled. -/
private theorem escape_constantText (h : parse source = .ok t) (hconstant : t.isConstant = true) :
    escape t.constantText.toList = source.toList := by
  rw [← chars_of_parse h, constantText, Text.toList_join]
  have hparts : ∀ part ∈ t.parts, part.isText = true := List.all_eq_true.mp hconstant
  generalize t.parts = parts at hparts
  induction parts with
  | nil => rfl
  | cons part rest ih =>
    obtain ⟨hpart, hrest⟩ := List.forall_mem_cons.mp hparts
    rw [List.map_cons, List.flatMap_cons, List.flatMap_cons, escape_append, ih hrest]
    cases part with
    | text s => rfl
    | placeholder name path => cases hpart

/-- A constant path that was checked where it has no brace can be read exactly when its text has
none. -/
private theorem parse_constantText_iff (h : parse source = .ok t) (hconstant : t.isConstant = true)
    (hchecked : .char '\x7b' ∈ source.toList ∨ AttrPath.IsPath source) :
    AttrPath.IsPath t.constantText ↔ .char '\x7b' ∉ t.constantText.toList := by
  have hsource := escape_constantText h hconstant
  constructor
  · intro hpath hmem
    cases not_isBrace_of_isPath hpath hmem
  · intro hmem
    have hbrace : .char '\x7b' ∉ source.toList := by rwa [← hsource, mem_escape]
    have hpath := hchecked.resolve_left hbrace
    have hplain : ∀ c ∈ t.constantText.toList, isBrace c = false := by
      intro c hc
      exact not_isBrace_of_isPath hpath (hsource ▸ mem_escape.mpr hc)
    rw [escape_of_plain hplain, Text.toList_inj] at hsource
    rwa [hsource]

end Template

private theorem Document.clean_validateAttrPath_iff {path : Text} :
    (validateAttrPath (some (.str path))).Clean ↔
      .char '\x7b' ∈ path.toList ∨ AttrPath.IsPath path := by
  rw [← List.contains_iff_mem, validateAttrPath]
  split
  · next hbrace => exact iff_of_true (Inspection.clean_pure true) (.inl hbrace)
  · next hplain =>
    rcases hread : AttrPath.read path with b | _ | steps
    · rw [Inspection.lift_error_bind]
      refine iff_of_false (Inspection.not_clean_throw b) (not_or.mpr ⟨hplain, ?_⟩)
      rintro ⟨steps, hsteps⟩
      cases hread.symm.trans hsteps
    · rw [Inspection.lift_ok_bind]
      refine iff_of_false (fun hclean => ?_) (not_or.mpr ⟨hplain, ?_⟩)
      · have hdefect := (Inspection.finds_defect
          ("Malformed getAttr path: " ++ Text.quoted path) (.str path)).within "argv[1]"
        cases (hdefect.bind (Inspection.finds_pure false)).clean_iff.mp hclean
      · rintro ⟨steps, hsteps⟩
        cases hread.symm.trans hsteps
    · rw [Inspection.lift_ok_bind]
      exact iff_of_true (Inspection.clean_pure true) (.inr ⟨steps, hread⟩)

namespace Expr
variable {env : Environment} {target : Expr} {args : List Expr} {t : Template}

/-- A valid call for an attribute has a target and a path, and a constant path can be read exactly
when its text has no brace that opens. -/
private theorem Valid.constant_path (h : (Expr.call (.text "getAttr") args).Valid .standard)
    (hpath : args[1]? = some (.template t)) (hconstant : t.isConstant = true) :
    ∃ target, args = [target, .template t] ∧
      (AttrPath.IsPath t.constantText ↔ .char '\x7b' ∉ t.constantText.toList) := by
  obtain ⟨name, raws, hname, hbuilt, ⟨f, hf, hlength⟩, -, hchecked⟩ := h.call
  cases hname
  obtain ⟨raw, hraw, hbuild⟩ :=
    Related.exists_of_getElem? (Document.buildItems_ok_iff.mp hbuilt) hpath
  have hclean := hchecked rfl
  rw [hraw] at hclean
  cases Document.builtFrom_of_buildExpr hbuild with
  | template ht =>
  have hiff := Template.parse_constantText_iff ht hconstant
    (Document.clean_validateAttrPath_iff.mp hclean)
  have hgetAttr : Registry.standard.find? "getAttr" = some Function.getAttr := rfl
  cases hgetAttr.symm.trans hf
  match args, hlength with
  | [target, path], _ =>
    cases hpath
    exact ⟨target, rfl, hiff⟩

/-- A call for an attribute hands the value of its target and the text of its path on. -/
private theorem outcome_getAttr (hconstant : t.isConstant = true) :
    (eval .standard env (.call (.text "getAttr") [target, .template t])).outcome =
      (target.eval .standard env).outcome.bind fun v =>
        Function.getAttr.body [v, some (.string t.constantText)] := by
  have htemplate : (eval .standard env (.template t)).outcome =
      .ok (some (.string t.constantText)) := by
    rw [eval, Noted.outcome_ofExcept, evalTemplate, if_pos hconstant]
    rfl
  cases htarget : (target.eval .standard env).outcome with
  | ok v =>
    have hargs : (evalArgs .standard env [target, .template t]).outcome =
        .ok [v, some (.string t.constantText)] :=
      evalArgs_ok_iff.mpr (.cons htarget (.cons htemplate .nil))
    rw [eval, Noted.outcome_bind_of_ok hargs, outcome_apply]
    rfl
  | error e =>
    have hargs : (evalArgs .standard env [target, .template t]).outcome = .error e := by
      rw [evalArgs, Noted.outcome_bind_of_error htarget]
    rw [eval, Noted.outcome_bind_of_error hargs]
    rfl

/-- With a path that can be read the call ends as its target does, followed by the path. -/
theorem outcome_getAttr_of_path (hconstant : t.isConstant = true) {steps : List AttrStep}
    (hsteps : AttrPath.read t.constantText = .ok (some steps)) :
    (eval .standard env (.call (.text "getAttr") [target, .template t])).outcome =
      (target.eval .standard env).outcome.map fun v => AttrPath.follow v steps := by
  rw [outcome_getAttr hconstant]
  cases (target.eval .standard env).outcome with
  | error e => rfl
  | ok v => exact AttrPath.attributeAt_of_read hsteps v

private theorem outcome_getAttr_of_malformed (hconstant : t.isConstant = true) {v : Value}
    (hmalformed : AttrPath.read t.constantText = .ok none)
    (htarget : (target.eval .standard env).outcome = .ok (some v)) :
    (eval .standard env (.call (.text "getAttr") [target, .template t])).outcome =
      .error (.malformedPath t.constantText) := by
  rw [outcome_getAttr hconstant, htarget]
  change Function.getAttr.body [some v, some (.string t.constantText)] = _
  exact Function.getAttr_of_malformed hmalformed

private theorem outcome_getAttr_of_unreadable (hconstant : t.isConstant = true) {v : Value}
    {b : Breakdown}
    (hbroken : AttrPath.read t.constantText = .error b)
    (htarget : (target.eval .standard env).outcome = .ok (some v)) :
    (eval .standard env (.call (.text "getAttr") [target, .template t])).outcome =
      .error (.breakdown b) := by
  rw [outcome_getAttr hconstant, htarget]
  change Function.getAttr.body [some v, some (.string t.constantText)] = _
  exact Function.getAttr_of_unreadable hbroken

end Expr

namespace RuleSet
variable {document : Json} {rs : RuleSet}

/-- In a loaded rule tree the constant path of every call that was checked can be read unless there
is an opening brace in it, and then the call has no error but that of its target. With such a brace
the call of any target that is there ends in the error about its path, or is broken off at it. -/
theorem getAttr_settled (hload : load .standard document = .ok rs) {above : List Condition}
    {rule : Rule} {e : Expr} {args : List Expr} {t : Template} (hrule : rs.root.Below above rule)
    (he : rule.Checked e) (hcall : (Expr.call (.text "getAttr") args).Within e)
    (hpath : args[1]? = some (.template t)) (hconstant : t.isConstant = true) :
    ∃ target, args = [target, .template t] ∧
      (AttrPath.IsPath t.constantText ↔ .char '\x7b' ∉ t.constantText.toList) ∧
      (∀ env steps, AttrPath.read t.constantText = .ok (some steps) →
        (Expr.eval .standard env (.call (.text "getAttr") args)).outcome =
          (target.eval .standard env).outcome.map fun v => AttrPath.follow v steps) ∧
      (∀ env v, AttrPath.read t.constantText = .ok none →
        (target.eval .standard env).outcome = .ok (some v) →
        (Expr.eval .standard env (.call (.text "getAttr") args)).outcome =
          .error (.malformedPath t.constantText)) ∧
      ∀ env v b, AttrPath.read t.constantText = .error b →
        (target.eval .standard env).outcome = .ok (some v) →
        (Expr.eval .standard env (.call (.text "getAttr") args)).outcome =
          .error (.breakdown b) := by
  have hvalid := (loaded_of_load hload).valid_within hrule he hcall
  obtain ⟨target, rfl, hiff⟩ := hvalid.constant_path hpath hconstant
  exact ⟨target, rfl, hiff, fun env steps => Expr.outcome_getAttr_of_path hconstant,
    fun env v => Expr.outcome_getAttr_of_malformed hconstant,
    fun env v b => Expr.outcome_getAttr_of_unreadable hconstant⟩

/-! A rule set with two paths, one in a condition and one in a property beside a `ref`. -/

/-- The parts of the URL in a parameter. -/
def urlOfA : Expr := .call (.text "parseURL") [.ref (.text "A")]

def callOfPath (path : Text) : Json :=
  .obj [("fn", .str "getAttr"), ("argv", .arr [.obj [("fn", .str "parseURL"),
    ("argv", .arr [.obj [("ref", .str "A")]])], .str path])]

def documentOfPaths (conditionPath propertyPath : Text) : Json := .obj [
  ("version", .str "1.0"),
  ("parameters", .obj [("A", .obj [("type", .str "String")])]),
  ("rules", .arr [.obj [("type", .str "endpoint"),
    ("conditions", .arr [callOfPath conditionPath]),
    ("endpoint", .obj [("url", .str "https://a.b"),
      ("properties", .obj [("ref", .str "A"), ("x", callOfPath propertyPath)])])]])]

def conditionOfPath (conditionPath : Template) : Condition :=
  ⟨.call (.text "getAttr") [urlOfA, .template conditionPath], none⟩

def headOfPath (conditionPath : Template) : RuleHead :=
  ⟨"rules[0]", [conditionOfPath conditionPath], none⟩

def bodyOfPath (propertyPath : Template) : EndpointBody :=
  ⟨.template ⟨"https://a.b", [.text "https://a.b"]⟩, [("ref", .template ⟨"A", [.text "A"]⟩),
    ("x", .call (.text "getAttr") [urlOfA, .template propertyPath])], []⟩

def ruleSetOfPaths (conditionPath propertyPath : Template) : RuleSet :=
  ⟨"1.0", [⟨"A", .string, false, none, none, none, none, none⟩],
    [.endpoint (headOfPath conditionPath) (bodyOfPath propertyPath)]⟩

def plainPath : Template := ⟨"authority", [.text "authority"]⟩

def escapedPath : Template := ⟨"a\x7b\x7bb", [.text "a\x7bb"]⟩

def brokenPath : Template := ⟨"a..b", [.text "a..b"]⟩

private theorem load_of_passes
    (hvalid : (Document.validateRuleSet .standard document).errors.map List.isEmpty = .ok true)
    (hbuilt : build document = .ok rs) (hchecked : analyze .standard rs = .ok ()) :
    load .standard document = .ok rs := by
  obtain ⟨errors, herrors, hempty⟩ := Outcome.map_ok_iff.mp hvalid
  rw [List.isEmpty_iff.mp hempty] at herrors
  have hclean : (Document.validateRuleSet .standard document).Clean := herrors
  rw [load_of_valid hclean hbuilt, hchecked]
  rfl

private theorem load_plainPath : load .standard (documentOfPaths "authority" "a..b") =
    .ok (ruleSetOfPaths plainPath brokenPath) :=
  load_of_passes (by decide +kernel) rfl rfl

private theorem load_escapedPath : load .standard (documentOfPaths "a\x7b\x7bb" "authority") =
    .ok (ruleSetOfPaths escapedPath plainPath) :=
  load_of_passes (by decide +kernel) rfl rfl

/-- The conditions and the endpoint of the one rule are places in its rule set. -/
private theorem below_ruleSetOfPaths (conditionPath propertyPath : Template) :
    (ruleSetOfPaths conditionPath propertyPath).root.Below []
      (.endpoint (headOfPath conditionPath) (bodyOfPath propertyPath)) :=
  .child .here (List.mem_singleton_self _)

theorem getAttr_settled_sample :
    load .standard (documentOfPaths "authority" "a..b") =
      .ok (ruleSetOfPaths plainPath brokenPath) ∧
    AttrPath.IsPath plainPath.constantText ∧
    ∀ env steps, AttrPath.read plainPath.constantText = .ok (some steps) →
      (Expr.eval .standard env (.call (.text "getAttr") [urlOfA, .template plainPath])).outcome =
        (urlOfA.eval .standard env).outcome.map fun v => AttrPath.follow v steps := by
  have hcondition : conditionOfPath plainPath ∈ (headOfPath plainPath).conditions :=
    List.mem_singleton_self _
  obtain ⟨target, hargs, hiff, hsettled, -⟩ := getAttr_settled load_plainPath
    (below_ruleSetOfPaths plainPath brokenPath) (.condition hcondition) .here rfl rfl
  cases hargs
  exact ⟨load_plainPath, hiff.mpr (by decide), hsettled⟩

/-- A loaded rule set has a constant path that cannot be read, and to evaluate the call with it ends
in the error about the path. -/
structure MissesPath (document : Json) (rs : RuleSet) (t : Template) : Prop where
  loads : load .standard document = .ok rs
  constant : t.isConstant = true
  place : ∃ (above : List Condition) (rule : Rule) (before : List Condition) (e : Expr),
    rs.root.Below above rule ∧ rule.Has before e ∧
      (Expr.call (.text "getAttr") [urlOfA, .template t]).Within e
  malformed : AttrPath.read t.constantText = .ok none
  raised : ∃ env : Environment,
    (Expr.eval .standard env (.call (.text "getAttr") [urlOfA, .template t])).outcome =
      .error (.malformedPath t.constantText)

/-- A path with an escaped brace gets past the validator, and so does any path that stands in a
property beside a `ref`. -/
theorem paths_missed :
    MissesPath (documentOfPaths "a\x7b\x7bb" "authority") (ruleSetOfPaths escapedPath plainPath)
      escapedPath ∧
    MissesPath (documentOfPaths "authority" "a..b") (ruleSetOfPaths plainPath brokenPath)
      brokenPath := by
  have htarget : (urlOfA.eval .standard (.ofFrame [("A", some (.string "https://a.b"))])).outcome =
      .ok (some (Url.toValue ⟨"https", "a.b", "", "/", false⟩)) := by
    decide +kernel
  have hraised (t : Template) (hconstant : t.isConstant = true)
      (hmalformed : AttrPath.read t.constantText = .ok none) : ∃ env : Environment,
        (Expr.eval .standard env (.call (.text "getAttr") [urlOfA, .template t])).outcome =
          .error (.malformedPath t.constantText) :=
    ⟨_, Expr.outcome_getAttr_of_malformed hconstant hmalformed htarget⟩
  have hproperty : Expr.call (.text "getAttr") [urlOfA, .template brokenPath] ∈
      (bodyOfPath brokenPath).exprs := by
    simp [bodyOfPath, EndpointBody.exprs]
  refine ⟨⟨load_escapedPath, rfl, ?_, by decide, hraised _ rfl (by decide)⟩,
    ⟨load_plainPath, rfl, ?_, by decide, hraised _ rfl (by decide)⟩⟩
  · exact ⟨[], _, [], _, below_ruleSetOfPaths _ _,
      .condition (c := conditionOfPath escapedPath) rfl, .here⟩
  · exact ⟨[], _, _, _, below_ruleSetOfPaths _ _, .terminal hproperty, .here⟩

end RuleSet
end EndpointRules
