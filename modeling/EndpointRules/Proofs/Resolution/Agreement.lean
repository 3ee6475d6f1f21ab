import EndpointRules.Proofs.Resolution.Steps

/-! A walk depends on its environment only through the names that it reads. -/

namespace EndpointRules
variable {r : Registry} {env env' : Environment} {names : Text → Prop}

/-- The two environments bind each of the names to the same value, or neither binds it. -/
def Environment.AgreeOn (names : Text → Prop) (env env' : Environment) : Prop :=
  ∀ name, names name → env.find? name = env'.find? name

namespace Environment.AgreeOn

private theorem mono {more : Text → Prop} (h : AgreeOn more env env')
    (hsub : ∀ name, names name → more name) : AgreeOn names env env' :=
  fun name hname => h name (hsub name hname)

private theorem push (h : AgreeOn names env env') : AgreeOn names env.push env'.push := h

private theorem lookup_eq (h : AgreeOn names env env') {name : Text} (hname : names name) :
    env.lookup name = env'.lookup name := by
  rw [lookup, lookup, h name hname]

end Environment.AgreeOn

/-! Expressions. -/

private theorem Template.renderParts_congr {lookup lookup' : Text → Except EvalError (Option Value)}
    {parts : List Template.Part}
    (h : ∀ name ∈ parts.filterMap Part.reference?, lookup name = lookup' name) :
    renderParts lookup parts = renderParts lookup' parts := by
  induction parts with
  | nil => rfl
  | cons part rest ih =>
    have hpart : part.render lookup = part.render lookup' := by
      cases part with
      | text s => rfl
      | placeholder name path =>
        rw [Part.render, Part.render, h name (by simp [Part.reference?])]
    have hrest : renderParts lookup rest = renderParts lookup' rest := by
      apply ih
      intro name hname
      apply h
      rw [List.filterMap_cons]
      split
      · exact hname
      · exact List.mem_cons_of_mem _ hname
    rw [renderParts, renderParts, hpart, hrest]

namespace Expr

private theorem evalArgs_congr {args : List Expr} (h : ∀ e ∈ args, e.eval r env = e.eval r env') :
    evalArgs r env args = evalArgs r env' args := by
  induction args with
  | nil => rfl
  | cons e rest ih =>
    obtain ⟨hfirst, hrest⟩ := List.forall_mem_cons.mp h
    rw [evalArgs, evalArgs, hfirst, ih hrest]

private theorem evalItems_congr {items : List Expr}
    (h : ∀ e ∈ items, e.eval r env = e.eval r env') :
    evalItems r env items = evalItems r env' items := by
  induction items with
  | nil => rfl
  | cons e rest ih =>
    obtain ⟨hfirst, hrest⟩ := List.forall_mem_cons.mp h
    rw [evalItems, evalItems, hfirst, ih hrest]

private theorem evalFields_congr {fields : List (Text × Expr)}
    (h : ∀ field ∈ fields, field.2.eval r env = field.2.eval r env') :
    evalFields r env fields = evalFields r env' fields := by
  induction fields with
  | nil => rfl
  | cons field rest ih =>
    obtain ⟨hfirst, hrest⟩ := List.forall_mem_cons.mp h
    rw [evalFields, evalFields, hfirst, ih hrest]

theorem mem_itemReferences {items : List Expr} {name : Text} :
    name ∈ itemReferences items ↔ ∃ e ∈ items, name ∈ e.references := by
  induction items with
  | nil => simp [itemReferences]
  | cons e rest ih => simp [itemReferences, ih]

theorem mem_fieldReferences {fields : List (Text × Expr)} {name : Text} :
    name ∈ fieldReferences fields ↔ ∃ field ∈ fields, name ∈ field.2.references := by
  induction fields with
  | nil => simp [fieldReferences]
  | cons field rest ih => simp [fieldReferences, ih]

/-- An expression is evaluated alike where its references have the same values. -/
private theorem eval_congr {e : Expr} (h : env.AgreeOn (· ∈ e.references) env') :
    e.eval r env = e.eval r env' := by
  induction e using Expr.ind with
  | bool b => rfl
  | int n => rfl
  | template t =>
    have hrender : t.render env.lookup = t.render env'.lookup :=
      Template.renderParts_congr fun _ hname => h.lookup_eq hname
    rw [eval, eval, evalTemplate, evalTemplate, hrender]
  | list items ih =>
    rw [eval, eval, evalItems_congr fun e he => ih e he ?_]
    exact h.mono fun name hname => mem_itemReferences.mpr ⟨e, he, hname⟩
  | record fields ih =>
    rw [eval, eval, evalFields_congr fun field hfield => ih field hfield ?_]
    exact h.mono fun name hname => mem_fieldReferences.mpr ⟨field, hfield, hname⟩
  | ref name =>
    cases name with
    | text s =>
      rw [eval, eval, Environment.lookupName, Environment.lookupName,
        h.lookup_eq List.mem_cons_self]
    | other given => rfl
  | call f args ih =>
    rw [eval, eval, evalArgs_congr fun e he => ih e he ?_]
    exact h.mono fun name hname => mem_itemReferences.mpr ⟨e, he, hname⟩

private theorem evalText_congr {e : Expr} (h : env.AgreeOn (· ∈ e.references) env')
    (context : Text) :
    e.evalText r env context = e.evalText r env' context := by
  rw [evalText, evalText, eval_congr h]

end Expr

/-! Conditions. -/

/-- The names that are known behind conditions that hold. -/
def namesAfter (names : Text → Prop) (conditions : List Condition) (name : Text) : Prop :=
  names name ∨ name ∈ conditions.filterMap Condition.assign

private theorem namesAfter_append (conditions more : List Condition) :
    namesAfter (namesAfter names conditions) more = namesAfter names (conditions ++ more) := by
  funext name
  simp only [namesAfter, List.filterMap_append, List.mem_append, or_assoc]

/-- Each condition reads only names that are known before it. -/
def ConditionsRead (names : Text → Prop) : List Condition → Prop
  | [] => True
  | c :: rest =>
    (∀ name ∈ c.expr.references, names name) ∧ ConditionsRead (namesAfter names [c]) rest

private theorem Environment.AgreeOn.pass (h : env.AgreeOn names env') (c : Condition)
    (v : Option Value) :
    (env.pass c v).AgreeOn (namesAfter names [c]) (env'.pass c v) := by
  intro name hname
  rw [namesAfter, List.filterMap_cons] at hname
  cases hassign : c.assign with
  | none =>
    rw [Environment.pass, Environment.pass, hassign]
    rw [hassign] at hname
    exact h name (hname.resolve_right List.not_mem_nil)
  | some assigned =>
    rw [Environment.pass, Environment.pass, hassign]
    rw [hassign] at hname
    dsimp only
    rw [find?_bind, find?_bind]
    split
    · rfl
    · next hne =>
      refine h name (hname.resolve_right fun hmem => hne ?_)
      exact (List.mem_singleton.mp hmem).symm

/-- Two tests of conditions end alike: in environments that agree, or both without one. -/
inductive TestedAlike (names : Text → Prop) :
    Except EvalError (Option Environment) → Except EvalError (Option Environment) → Prop
  | holds {inner inner' : Environment} :
      inner.AgreeOn names inner' → TestedAlike names (.ok (some inner)) (.ok (some inner'))
  | fails : TestedAlike names (.ok none) (.ok none)
  | error (e : EvalError) : TestedAlike names (.error e) (.error e)

/-- Conditions end alike where the names that they read have the same values. -/
private theorem Environment.AgreeOn.test (h : env.AgreeOn names env') {conditions : List Condition}
    (hread : ConditionsRead names conditions) :
    TestedAlike (namesAfter names conditions) (env.test r conditions) (env'.test r conditions) := by
  induction conditions generalizing env env' names with
  | nil => exact .holds (h.mono fun name hname => hname.resolve_right List.not_mem_nil)
  | cons c rest ih =>
    obtain ⟨hc, hrest⟩ := hread
    have heval : c.expr.eval r env = c.expr.eval r env' := Expr.eval_congr (h.mono hc)
    cases hv : (c.expr.eval r env).outcome with
    | error e =>
      rw [Environment.test_cons_of_error hv, Environment.test_cons_of_error (heval ▸ hv)]
      exact .error e
    | ok v =>
      cases htruth : Value.isTruthy v with
      | false =>
        rw [Environment.test_cons_of_false hv htruth,
          Environment.test_cons_of_false (heval ▸ hv) htruth]
        exact .fails
      | true =>
        rw [Environment.test_cons_of_true hv htruth,
          Environment.test_cons_of_true (heval ▸ hv) htruth, ← List.singleton_append,
          ← namesAfter_append]
        exact ih (h.pass c v) hrest

/-- What comes behind conditions is alike if it is alike in environments that agree. -/
private theorem Environment.AgreeOn.behind_eq {α : Type} (h : env.AgreeOn names env')
    {conditions : List Condition} {next next' : Environment → Except EvalError (Option α)}
    (hread : ConditionsRead names conditions)
    (hnext : ∀ inner inner' : Environment,
      inner.AgreeOn (namesAfter names conditions) inner' → next inner = next' inner') :
    env.behind r conditions next = env'.behind r conditions next' := by
  have htest := h.test hread (r := r)
  rw [behind, behind]
  generalize env.test r conditions = tested at htest ⊢
  generalize env'.test r conditions = tested' at htest ⊢
  cases htest with
  | holds hinner => exact hnext _ _ hinner
  | fails => rfl
  | error e => rfl

/-! Rules. -/

namespace WalkContext
variable {ctx : WalkContext} {path : Text}

private theorem headerValues_congr {values : List Expr} (context : Text)
    (h : ∀ e ∈ values, env.AgreeOn (· ∈ e.references) env') :
    ctx.headerValues env context values = ctx.headerValues env' context values := by
  induction values with
  | nil => rfl
  | cons e rest ih =>
    obtain ⟨hfirst, hrest⟩ := List.forall_mem_cons.mp h
    rw [headerValues, headerValues, Expr.evalText_congr hfirst, ih hrest]

private theorem headers_congr {headers : List (Text × List Expr)}
    (h : ∀ header ∈ headers, ∀ e ∈ header.2, env.AgreeOn (· ∈ e.references) env') :
    ctx.headers env path headers = ctx.headers env' path headers := by
  induction headers with
  | nil => rfl
  | cons header rest ih =>
    obtain ⟨hfirst, hrest⟩ := List.forall_mem_cons.mp h
    rw [WalkContext.headers, WalkContext.headers, headerValues_congr _ hfirst, ih hrest]

private theorem properties_congr {properties : List (Text × Expr)}
    (h : ∀ property ∈ properties, env.AgreeOn (· ∈ property.2.references) env') :
    ctx.properties env path properties = ctx.properties env' path properties := by
  induction properties with
  | nil => rfl
  | cons property rest ih =>
    obtain ⟨hfirst, hrest⟩ := List.forall_mem_cons.mp h
    rw [WalkContext.properties, WalkContext.properties, Expr.eval_congr hfirst, ih hrest]

private theorem endpoint_congr {body : EndpointBody}
    (h : ∀ e ∈ body.exprs, env.AgreeOn (· ∈ e.references) env') :
    ctx.endpoint env path body = ctx.endpoint env' path body := by
  have hurl := h body.url (EndpointBody.mem_exprs.mpr (.inl rfl))
  have hheaders : ctx.headers env path body.headers = ctx.headers env' path body.headers :=
    headers_congr fun header hheader e he =>
      h e (EndpointBody.mem_exprs.mpr (.inr (.inr ⟨header, hheader, he⟩)))
  have hproperties :
      ctx.properties env path body.properties = ctx.properties env' path body.properties :=
    properties_congr fun property hproperty =>
      h property.2 (EndpointBody.mem_exprs.mpr (.inr (.inl ⟨property, hproperty, rfl⟩)))
  rw [endpoint, endpoint, Expr.evalText_congr hurl, hheaders, hproperties]

end WalkContext

namespace Rule

mutual
/-- A rule and the rules below it read only known names, and names assigned on the way to where
they are read. -/
def Reads (names : Text → Prop) : Rule → Prop
  | .endpoint head body => ConditionsRead names head.conditions ∧
    ∀ e ∈ body.exprs, ∀ name ∈ e.references, namesAfter names head.conditions name
  | .error head message => ConditionsRead names head.conditions ∧
    ∀ name ∈ message.references, namesAfter names head.conditions name
  | .tree head rules =>
    ConditionsRead names head.conditions ∧ AllRead (namesAfter names head.conditions) rules

def AllRead (names : Text → Prop) : List Rule → Prop
  | [] => True
  | rule :: rest => rule.Reads names ∧ AllRead names rest
end

theorem allRead_iff {rules : List Rule} :
    AllRead names rules ↔ ∀ rule ∈ rules, rule.Reads names := by
  induction rules with
  | nil => simp [AllRead]
  | cons rule rest ih => simp [AllRead, ih]

end Rule

namespace WalkContext
variable {ctx : WalkContext}

theorem outcome_tryRules_congr {rules : List Rule}
    (h : ∀ rule ∈ rules,
      (ctx.tryRule env.push rule).outcome = (ctx.tryRule env'.push rule).outcome) :
    (ctx.tryRules env rules).outcome = (ctx.tryRules env' rules).outcome := by
  induction rules with
  | nil => rfl
  | cons rule rest ih =>
    obtain ⟨hfirst, hrest⟩ := List.forall_mem_cons.mp h
    rw [outcome_tryRules_cons, outcome_tryRules_cons, hfirst, ih hrest]

end WalkContext

/-- A rule ends alike where the names that it reads have the same values. -/
theorem Environment.AgreeOn.outcome_tryRule {ctx : WalkContext} {rule : Rule}
    (h : env.AgreeOn names env') (hread : rule.Reads names) :
    (ctx.tryRule env rule).outcome = (ctx.tryRule env' rule).outcome := by
  induction rule using Rule.ind generalizing names env env' with
  | endpoint head body =>
    rw [WalkContext.outcome_tryRule, WalkContext.outcome_tryRule]
    refine h.behind_eq hread.1 fun inner inner' hinner => ?_
    rw [WalkContext.enter, WalkContext.enter, WalkContext.endpoint_congr]
    exact fun e he => hinner.mono (hread.2 e he)
  | error head message =>
    rw [WalkContext.outcome_tryRule, WalkContext.outcome_tryRule]
    refine h.behind_eq hread.1 fun inner inner' hinner => ?_
    rw [WalkContext.enter, WalkContext.enter, WalkContext.rejection, WalkContext.rejection,
      Expr.evalText_congr (hinner.mono hread.2)]
  | tree head rules ih =>
    rw [WalkContext.outcome_tryRule, WalkContext.outcome_tryRule]
    refine h.behind_eq hread.1 fun inner inner' hinner => ?_
    refine WalkContext.outcome_tryRules_congr fun rule hrule => ?_
    exact ih rule hrule hinner.push (Rule.allRead_iff.mp hread.2 rule hrule)

end EndpointRules
