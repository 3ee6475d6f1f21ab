import EndpointRules.Proofs.Document.Loaded
import EndpointRules.Proofs.Resolution.Agreement

/-! Rule trees are walked like flat lists of rules. A flat rule stands for an endpoint or an error
and has the conditions of all rules above it, from the outermost inwards, before its own. -/

namespace EndpointRules
variable {ctx : WalkContext} {env : Environment}

namespace Rule

mutual
/-- The endpoints and errors of a rule, in the order of the document, behind the conditions
`above`. -/
def flatten (above : List Condition) : Rule → List Rule
  | .endpoint head body => [.endpoint { head with conditions := above ++ head.conditions } body]
  | .error head message => [.error { head with conditions := above ++ head.conditions } message]
  | .tree head rules => flattenAll (above ++ head.conditions) rules

def flattenAll (above : List Condition) : List Rule → List Rule
  | [] => []
  | rule :: rest => rule.flatten above ++ flattenAll above rest
end

private theorem mem_flattenAll {above : List Condition} {rules : List Rule} {flat : Rule} :
    flat ∈ flattenAll above rules ↔ ∃ rule ∈ rules, flat ∈ rule.flatten above := by
  induction rules with
  | nil => simp [flattenAll]
  | cons rule rest ih => simp [flattenAll, ih]

private theorem kind_of_mem_flatten {above : List Condition} {rule flat : Rule}
    (h : flat ∈ rule.flatten above) : flat.kind ≠ .tree := by
  induction rule using Rule.ind generalizing above with
  | endpoint head body =>
    obtain rfl := List.mem_singleton.mp h
    simp [kind]
  | error head message =>
    obtain rfl := List.mem_singleton.mp h
    simp [kind]
  | tree head rules ih =>
    obtain ⟨rule, hrule, hflat⟩ := mem_flattenAll.mp h
    exact ih rule hrule hflat

private theorem reads_of_all {names : Text → Prop} (hall : ∀ name, names name) (rule : Rule) :
    rule.Reads names := by
  have hconditions (conditions : List Condition) {names : Text → Prop}
      (hall : ∀ name, names name) : ConditionsRead names conditions := by
    induction conditions generalizing names with
    | nil => trivial
    | cons c rest ih => exact ⟨fun name _ => hall name, ih fun name => .inl (hall name)⟩
  induction rule using Rule.ind generalizing names with
  | endpoint head body => exact ⟨hconditions _ hall, fun _ _ name _ => .inl (hall name)⟩
  | error head message => exact ⟨hconditions _ hall, fun name _ => .inl (hall name)⟩
  | tree head rules ih =>
    refine ⟨hconditions _ hall, allRead_iff.mpr fun rule hrule => ?_⟩
    exact ih rule hrule fun name => .inl (hall name)

end Rule

namespace WalkContext

/-- A fresh frame changes nothing for a rule. -/
private theorem outcome_tryRule_push (rule : Rule) :
    (ctx.tryRule env.push rule).outcome = (ctx.tryRule env rule).outcome := by
  have hagree : env.push.AgreeOn (fun _ => True) env := fun _ _ => rfl
  exact hagree.outcome_tryRule (Rule.reads_of_all (fun _ => trivial) rule)

private theorem outcome_tryRules_singleton (rule : Rule) :
    (ctx.tryRules env [rule]).outcome = (ctx.tryRule env.push rule).outcome := by
  rw [outcome_tryRules_cons]
  cases (ctx.tryRule env.push rule).outcome with
  | error e => rfl
  | ok found => cases found <;> rfl

/-- Conditions that are put before those of a rule are tested first. -/
private theorem outcome_tryRule_above {rule flat : Rule} {above : List Condition}
    (hconditions : flat.conditions = above ++ rule.conditions)
    (henter : ∀ inner : Environment, ctx.enter inner flat = ctx.enter inner rule) :
    (ctx.tryRule env flat).outcome =
      env.behind ctx.registry above fun inner => (ctx.tryRule inner rule).outcome := by
  simp only [outcome_tryRule, hconditions, henter, Environment.behind_append]

/-- Flat rules behind conditions that hold or fail, without regard to whether there are any. -/
private theorem outcome_flattenAll_of_ok {above : List Condition} {rules : List Rule}
    {found : Option Environment} (htest : env.push.test ctx.registry above = .ok found)
    (hrule : ∀ rule ∈ rules, (ctx.tryRules env (rule.flatten above)).outcome =
      env.push.behind ctx.registry above fun inner => (ctx.tryRule inner rule).outcome) :
    (ctx.tryRules env (Rule.flattenAll above rules)).outcome =
      env.push.behind ctx.registry above fun inner => (ctx.tryRules inner rules).outcome := by
  induction rules with
  | nil =>
    cases found with
    | none => rw [Environment.behind_of_fails htest]; rfl
    | some inner => rw [Environment.behind_of_holds htest]; rfl
  | cons rule rest ih =>
    obtain ⟨hfirst, hrest⟩ := List.forall_mem_cons.mp hrule
    rw [Rule.flattenAll, outcome_tryRules_append, hfirst, ih hrest]
    cases found with
    | none =>
      simp only [Environment.behind_of_fails htest]
      rfl
    | some inner =>
      simp only [Environment.behind_of_holds htest]
      rw [outcome_tryRules_cons, outcome_tryRule_push]

/-- Flat rules behind conditions. That there are any matters where a condition has an error. -/
private theorem outcome_flattenAll {above : List Condition} {rules : List Rule} (hne : rules ≠ [])
    (hrule : ∀ rule ∈ rules, (ctx.tryRules env (rule.flatten above)).outcome =
      env.push.behind ctx.registry above fun inner => (ctx.tryRule inner rule).outcome) :
    (ctx.tryRules env (Rule.flattenAll above rules)).outcome =
      env.push.behind ctx.registry above fun inner => (ctx.tryRules inner rules).outcome := by
  cases htest : env.push.test ctx.registry above with
  | ok found => exact outcome_flattenAll_of_ok htest hrule
  | error e =>
    obtain ⟨rule, rest, rfl⟩ := List.exists_cons_of_ne_nil hne
    rw [Rule.flattenAll, outcome_tryRules_append, hrule rule List.mem_cons_self]
    simp only [Environment.behind_of_error htest]
    rfl

/-- A rule in flat form behaves like the rule behind the conditions that are put before it. -/
private theorem outcome_flatten {rule : Rule} (hb : rule.Branching) (above : List Condition) :
    (ctx.tryRules env (rule.flatten above)).outcome =
      env.push.behind ctx.registry above fun inner => (ctx.tryRule inner rule).outcome := by
  induction rule using Rule.ind generalizing above with
  | endpoint head body =>
    rw [Rule.flatten, outcome_tryRules_singleton]
    exact outcome_tryRule_above rfl fun _ => rfl
  | error head message =>
    rw [Rule.flatten, outcome_tryRules_singleton]
    exact outcome_tryRule_above rfl fun _ => rfl
  | tree head rules ih =>
    have hbranching := Rule.allBranching_iff.mp hb.2
    rw [Rule.flatten, outcome_flattenAll hb.1 fun rule hrule =>
      ih rule hrule (hbranching rule hrule) (above ++ head.conditions), Environment.behind_append]
    simp only [outcome_tryRule]
    rfl

private theorem walk_flatten {rules : List Rule} (hb : Rule.AllBranching rules) (frame : Frame) :
    (ctx.walk frame (Rule.flattenAll [] rules)).outcome = (ctx.walk frame rules).outcome := by
  have htest : (Environment.ofFrame frame).push.test ctx.registry [] =
      .ok (some (Environment.ofFrame frame).push) := rfl
  have hrules : (ctx.tryRules (.ofFrame frame) (Rule.flattenAll [] rules)).outcome =
      (ctx.tryRules (.ofFrame frame) rules).outcome := by
    rw [outcome_flattenAll_of_ok htest fun rule hrule =>
      outcome_flatten (Rule.allBranching_iff.mp hb rule hrule) [],
        Environment.behind_of_holds htest]
    exact outcome_tryRules_congr fun rule _ => outcome_tryRule_push rule
  rw [outcome_walk, outcome_walk, hrules]

/-- An endpoint or an error gives nothing exactly when its conditions fail. -/
private theorem tryRule_none_iff {rule : Rule} (hk : rule.kind ≠ .tree) :
    (ctx.tryRule env rule).outcome = .ok none ↔
      env.test ctx.registry rule.conditions = .ok none := by
  rw [outcome_tryRule]
  cases htest : env.test ctx.registry rule.conditions with
  | error e =>
    rw [Environment.behind_of_error htest]
    constructor <;> rintro ⟨⟩
  | ok found =>
    cases found with
    | none => simp only [Environment.behind_of_fails htest]
    | some inner =>
      rw [Environment.behind_of_holds htest]
      exact ⟨fun h => absurd h (enter_ne_none hk inner), by rintro ⟨⟩⟩

end WalkContext

def RuleSet.flatten (rs : RuleSet) : RuleSet := { rs with rules := Rule.flattenAll [] rs.rules }

def Resolver.flatten (res : Resolver) : Resolver := { res with ruleSet := res.ruleSet.flatten }

/-- A loaded rule set and its flat form have the same outcomes. They end without a result exactly
when the conditions of every flat rule fail, so that none of them has an error. -/
theorem Resolver.resolveBound_flatten {res : Resolver} {document : Json} (h : res.Serves document)
    (frame : Frame) :
    (res.flatten.resolveBound frame).outcome = (res.resolveBound frame).outcome ∧
    ((res.resolveBound frame).outcome = .error .unresolved ↔
      ∀ rule ∈ res.ruleSet.flatten.rules,
        (Environment.ofFrame frame).push.test res.registry rule.conditions = .ok none) := by
  have hwalk : (res.flatten.resolveBound frame).outcome = (res.resolveBound frame).outcome :=
    WalkContext.walk_flatten h.loaded.rules_branching frame
  refine ⟨hwalk, ?_⟩
  rw [← hwalk, resolveBound, WalkContext.walk_unresolved_iff, WalkContext.tryRules_none_iff]
  refine forall₂_congr fun rule hrule => ?_
  obtain ⟨_, _, hflat⟩ := Rule.mem_flattenAll.mp hrule
  exact WalkContext.tryRule_none_iff (Rule.kind_of_mem_flatten hflat)

namespace Resolver

/-- An endpoint below a tree rule, for one zone only. -/
def zonesDocument : Json := .obj [
  ("version", .str "1.0"),
  ("parameters", .obj [("Zone", .obj [("type", .str "String")])]),
  ("rules", .arr [.obj [("type", .str "tree"),
    ("conditions", .arr [.obj [("fn", .str "stringEquals"),
      ("argv", .arr [.obj [("ref", .str "Zone")], .str "a"])]]),
    ("rules", .arr [.obj [("type", .str "endpoint"),
      ("endpoint", .obj [("url", .str "https://a")])]])]])]

@[irreducible]
def zonesResolver : Resolver :=
  .ofRuleSet ((RuleSet.load .standard zonesDocument).toOption.getD ⟨"", [], []⟩)

theorem zonesResolver_serves : zonesResolver.Serves zonesDocument := by
  have hok : (RuleSet.load .standard zonesDocument).isOk = true := by decide +kernel
  obtain ⟨rs, hload⟩ := Outcome.exists_of_isOk hok
  rw [zonesResolver, hload]
  exact ⟨rfl, hload⟩

theorem resolveBound_flatten_sample : zonesResolver.Serves zonesDocument ∧
    (∃ result, (zonesResolver.resolveBound [("Zone", some (.string "a"))]).outcome = .ok result ∧
      (zonesResolver.flatten.resolveBound [("Zone", some (.string "a"))]).outcome = .ok result) ∧
    (zonesResolver.flatten.resolveBound [("Zone", some (.string "b"))]).outcome =
      .error .unresolved ∧
    ∀ rule ∈ zonesResolver.ruleSet.flatten.rules,
      (Environment.ofFrame [("Zone", some (.string "b"))]).push.test zonesResolver.registry
        rule.conditions = .ok none := by
  have hok : (zonesResolver.resolveBound [("Zone", some (.string "a"))]).outcome.isOk = true := by
    decide +kernel
  obtain ⟨result, hresult⟩ := Outcome.exists_of_isOk hok
  have hunresolved : (zonesResolver.resolveBound [("Zone", some (.string "b"))]).outcome =
      .error .unresolved := Outcome.error?_eq_some_iff.mp (by decide +kernel)
  obtain ⟨hsame, -⟩ := resolveBound_flatten zonesResolver_serves [("Zone", some (.string "a"))]
  obtain ⟨hother, hfails⟩ := resolveBound_flatten zonesResolver_serves [("Zone", some (.string "b"))]
  exact ⟨zonesResolver_serves, ⟨result, hresult, hsame.trans hresult⟩,
    hother.trans hunresolved, hfails.mp hunresolved⟩

end Resolver
end EndpointRules
