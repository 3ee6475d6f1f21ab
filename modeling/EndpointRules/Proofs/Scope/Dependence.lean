import EndpointRules.Proofs.Document.Paths
import EndpointRules.Proofs.Resolution.Agreement

/-! The names that a tree rule uses are all that its outcome depends on. In rules that fit, a
condition never refers to a name that it or a later condition assigns, so taking the assigned names
away from the references loses none that is read from outside. -/

namespace EndpointRules
variable {r : Registry} {scope : TyEnv} {names : Text → Prop}

/-! Names in scope. -/

theorem Expr.Fits.references_in_scope {e : Expr} (h : e.Fits r scope) {name : Text}
    (hname : name ∈ e.references) : (scope.find? name).isSome := by
  induction e using Expr.ind with
  | bool b => cases hname
  | int n => cases hname
  | template t => exact h name hname
  | list items ih =>
    obtain ⟨e, he, hname⟩ := mem_itemReferences.mp hname
    exact ih e he ((itemsFit_iff _).mp h e he) hname
  | record fields ih =>
    obtain ⟨field, hfield, hname⟩ := mem_fieldReferences.mp hname
    exact ih field hfield ((fieldsFit_iff _).mp h field hfield) hname
  | ref given =>
    cases given with
    | text s =>
      obtain rfl := List.mem_singleton.mp hname
      exact h
    | other given => cases hname
  | call f args ih =>
    obtain ⟨e, he, hname⟩ := mem_itemReferences.mp hname
    exact ih e he ((itemsFit_iff _).mp h.1 e he) hname

/-- Conditions that fit assign no name that is in scope before them. -/
theorem ConditionsFit.not_mem_assigns {conditions : List Condition} {name : Text}
    (h : ConditionsFit r scope conditions) (hname : (scope.find? name).isSome) :
    name ∉ conditions.filterMap Condition.assign := by
  induction conditions generalizing scope with
  | nil => exact List.not_mem_nil
  | cons c rest ih =>
    intro hmem
    obtain ⟨c', hc', hassign⟩ := List.mem_filterMap.mp hmem
    obtain rfl | hc' := List.mem_cons.mp hc'
    · have hnew := h.1.2 name hassign
      rw [TyEnv.contains, Fields.hasKey] at hnew
      exact absurd hname (by rw [TyEnv.find?, hnew]; simp)
    · exact ih h.2 ((TyEnv.isSome_find?_pass c).mpr (.inl hname))
        (List.mem_filterMap.mpr ⟨c', hc', hassign⟩)

/-! Reading. -/

/-- Conditions that fit read known names if those are known that they refer to but do not assign. -/
private theorem ConditionsFit.read {conditions : List Condition}
    (h : ConditionsFit r scope conditions)
    (hnames : ∀ name ∈ Expr.itemReferences (conditions.map Condition.expr),
      name ∉ conditions.filterMap Condition.assign → names name) :
    ConditionsRead names conditions := by
  induction conditions generalizing scope names with
  | nil => trivial
  | cons c rest ih =>
    rw [List.map_cons, Expr.itemReferences] at hnames
    constructor
    · intro name hname
      refine hnames name (List.mem_append_left _ hname) ?_
      exact h.not_mem_assigns (h.1.1.references_in_scope hname)
    · refine ih h.2 fun name hname hnot => ?_
      by_cases hassign : c.assign = some name
      · exact .inr (List.mem_filterMap.mpr ⟨c, List.mem_singleton_self c, hassign⟩)
      · refine .inl (hnames name (List.mem_append_right _ hname) fun hmem => ?_)
        obtain ⟨c', hc', hassign'⟩ := List.mem_filterMap.mp hmem
        obtain rfl | hc' := List.mem_cons.mp hc'
        · exact hassign hassign'
        · exact hnot (List.mem_filterMap.mpr ⟨c', hc', hassign'⟩)

namespace Rule

theorem mem_freeNamesOfAll {rules : List Rule} {name : Text} :
    name ∈ freeNamesOfAll rules ↔ ∃ rule ∈ rules, name ∈ rule.freeNames := by
  induction rules with
  | nil => simp [freeNamesOfAll]
  | cons rule rest ih => simp [freeNamesOfAll, ih]

theorem mem_free {assigned references : List Text} {name : Text} :
    name ∈ references.filter (fun name => !assigned.contains name) ↔
      name ∈ references ∧ name ∉ assigned := by
  simp [List.mem_filter]

/-- A name that is referred to behind conditions is assigned by them or free, and free names are
known. -/
private theorem known_of_mem {conditions : List Condition} {references : List Text}
    (hnames : ∀ name ∈ references.filter fun name =>
      !(conditions.filterMap Condition.assign).contains name, names name)
    {name : Text} (hname : name ∈ references) : namesAfter names conditions name := by
  by_cases hassign : name ∈ conditions.filterMap Condition.assign
  · exact .inr hassign
  · exact .inl (hnames name (mem_free.mpr ⟨hname, hassign⟩))

/-- A rule that fits reads only known names if its free names are known. -/
private theorem Fits.reads {rule : Rule} (h : rule.Fits r scope)
    (hnames : ∀ name ∈ rule.freeNames, names name) : rule.Reads names := by
  induction rule using Rule.ind generalizing scope names with
  | endpoint head body =>
    constructor
    · exact h.1.read fun name hname hnot =>
        hnames name (mem_free.mpr ⟨List.mem_append_left _ hname, hnot⟩)
    · intro e he name hname
      exact known_of_mem hnames
        (List.mem_append_right _ (Expr.mem_itemReferences.mpr ⟨e, he, hname⟩))
  | error head message =>
    constructor
    · exact h.1.read fun name hname hnot =>
        hnames name (mem_free.mpr ⟨List.mem_append_left _ hname, hnot⟩)
    · intro name hname
      exact known_of_mem hnames (List.mem_append_right _ hname)
  | tree head rules ih =>
    constructor
    · exact h.1.read fun name hname hnot =>
        hnames name (mem_free.mpr ⟨List.mem_append_left _ hname, hnot⟩)
    · rw [allRead_iff]
      intro rule hrule
      refine ih rule hrule ((allFit_iff _).mp h.2 rule hrule) fun name hname => ?_
      exact known_of_mem hnames
        (List.mem_append_right _ (mem_freeNamesOfAll.mpr ⟨rule, hrule, hname⟩))

/-- What stands below a rule that fits, fits a scope of its own. -/
private theorem Within.fits {inner rule : Rule} (hw : inner.Within rule) (h : rule.Fits r scope) :
    ∃ innerScope, inner.Fits r innerScope := by
  induction hw generalizing scope with
  | here => exact ⟨scope, h⟩
  | child hmem _ ih => exact ih ((allFit_iff _).mp h.2 _ hmem)

end Rule

namespace Resolver
variable {res : Resolver} {document : Json}

private theorem tryRule_of_uses (h : res.Serves document) {head : RuleHead} {rules : List Rule}
    (hw : (Rule.tree head rules).Within res.ruleSet.root) :
    ∃ scope, Fields.get? head.path res.ruleSet.scopes = some scope ∧
      ∀ env env' : Environment, (∀ name ∈ scope.uses, env.find? name = env'.find? name) →
        (res.context.tryRule env (.tree head rules)).outcome =
          (res.context.tryRule env' (.tree head rules)).outcome := by
  refine ⟨_, hw.get?_scopes h.loaded.placed, fun env env' hagree => ?_⟩
  obtain ⟨scope, hfits⟩ := hw.fits h.loaded.root_fits
  have huses : env.AgreeOn (· ∈ (Rule.tree head rules).freeNames) env' :=
    fun name hname => hagree name ((mem_orderedNames _ _).mpr hname)
  exact huses.outcome_tryRule (hfits.reads fun _ hname => hname)

/-- The scope table of a loaded rule set lists all names that outcomes depend on. Resolving ends
alike from any two frames that give the names of the root the same values, and trying a tree rule
ends alike in any two environments that agree on the names of the rule. The environments need not
leave the names free that are assigned from the rule downwards. -/
theorem outcome_of_uses (h : res.Serves document) :
    (∃ scope, Fields.get? Rule.rootPath res.ruleSet.scopes = some scope ∧
      ∀ frame frame' : Frame,
        (∀ name ∈ scope.uses, Fields.get? name frame = Fields.get? name frame') →
        (res.resolveBound frame).outcome = (res.resolveBound frame').outcome) ∧
    ∀ head rules, (Rule.tree head rules).Within res.ruleSet.root →
      ∃ scope, Fields.get? head.path res.ruleSet.scopes = some scope ∧
        ∀ env env' : Environment, (∀ name ∈ scope.uses, env.find? name = env'.find? name) →
          (res.context.tryRule env (.tree head rules)).outcome =
            (res.context.tryRule env' (.tree head rules)).outcome := by
  refine ⟨?_, fun head rules hw => tryRule_of_uses h hw⟩
  have hhere : res.ruleSet.root.Within res.ruleSet.root := .here
  obtain ⟨scope, hscope, hsame⟩ := tryRule_of_uses h hhere
  refine ⟨scope, hscope, fun frame frame' hframes => ?_⟩
  -- The root has no conditions, so trying it is trying the rules below it.
  have hroot (frame : Frame) : (res.context.tryRule (.ofFrame frame) res.ruleSet.root).outcome =
      (res.context.tryRules (.ofFrame frame) res.ruleSet.rules).outcome := by
    rw [WalkContext.outcome_tryRule]
    rfl
  have hrules : (res.context.tryRule (.ofFrame frame) res.ruleSet.root).outcome =
      (res.context.tryRule (.ofFrame frame') res.ruleSet.root).outcome := by
    refine hsame _ _ fun name hname => ?_
    rw [Environment.find?_ofFrame, Environment.find?_ofFrame, hframes name hname]
  rw [resolveBound, resolveBound, WalkContext.outcome_walk, WalkContext.outcome_walk, ← hroot,
    ← hroot, hrules]

theorem outcome_of_uses_sample :
    (sampleResolver.resolveBound (sampleFrame "isIp")).outcome =
      (sampleResolver.resolveBound
        (Fields.put "Spare" (some (.bool true)) (sampleFrame "isIp"))).outcome := by
  obtain ⟨⟨scope, hscope, hsame⟩, -⟩ := outcome_of_uses sampleResolver_serves
  have htable : Fields.get? Rule.rootPath sampleResolver.ruleSet.scopes =
      some ⟨[], ["Endpoint", "Field", "Region"]⟩ := by
    decide +kernel
  cases htable.symm.trans hscope
  refine hsame _ _ ?_
  decide

end Resolver
end EndpointRules
