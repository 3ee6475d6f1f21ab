import EndpointRules.Proofs.Resolution.Steps

/-! The occurrences of expressions that a resolution evaluates. An occurrence is reached when all
that is evaluated before it has had an answer, and every error of an evaluation is raised at an
occurrence that is reached. -/

namespace EndpointRules

namespace Expr
variable {r : Registry} {env : Environment}

/-- Evaluating an expression comes to evaluate an occurrence in it, or the expression itself. -/
inductive Reaches (r : Registry) (env : Environment) : Expr → Expr → Prop
  | here (e : Expr) : Reaches r env e e
  | item {before : List Expr} {e : Expr} {after : List Expr} {vs : List Value} {sub : Expr} :
      (evalItems r env before).outcome = .ok vs → Reaches r env e sub →
      Reaches r env (.list (before ++ e :: after)) sub
  | field {before : List (Text × Expr)} {name : Text} {e : Expr}
      {after : List (Text × Expr)} {vs : List (Text × Value)} {sub : Expr} :
      (evalFields r env before).outcome = .ok vs → Reaches r env e sub →
      Reaches r env (.record (before ++ (name, e) :: after)) sub
  | argument {f : Name} {before : List Expr} {e : Expr} {after : List Expr}
      {vs : List (Option Value)} {sub : Expr} :
      (evalArgs r env before).outcome = .ok vs → Reaches r env e sub →
      Reaches r env (.call f (before ++ e :: after)) sub

/-- An expression raises an error by itself: none of its parts has ended in the error. -/
inductive Raises (r : Registry) (env : Environment) : Expr → EvalError → Prop
  | template {t : Template} {err : EvalError} :
      evalTemplate env t = .error err → Raises r env (.template t) err
  | absent {before : List Expr} {e : Expr} {after : List Expr} {vs : List Value} :
      (evalItems r env before).outcome = .ok vs → (e.eval r env).outcome = .ok none →
      Raises r env (.list (before ++ e :: after)) .absentElement
  | lookup {name : Name} {err : EvalError} :
      env.lookupName name = .error err → Raises r env (.ref name) err
  | call {f : Name} {args : List Expr} {vs : List (Option Value)} {err : EvalError} :
      (evalArgs r env args).outcome = .ok vs → r.call f vs = .error err →
      Raises r env (.call f args) err

/-- Every error of an evaluation is raised at an occurrence that the evaluation reaches. -/
private theorem exists_raises {e : Expr} {err : EvalError}
    (h : (e.eval r env).outcome = .error err) :
    ∃ sub, e.Reaches r env sub ∧ sub.Raises r env err := by
  induction e using Expr.ind with
  | bool b => cases h
  | int n => cases h
  | template t =>
    refine ⟨.template t, .here _, .template ?_⟩
    rw [eval, Noted.outcome_ofExcept] at h
    cases ht : evalTemplate env t with
    | ok s => simp [ht, Except.map] at h
    | error e => simpa [ht, Except.map] using h
  | list items ih =>
    rw [eval, Noted.bind_error_iff] at h
    obtain hitems | ⟨_, _, h⟩ := h
    · obtain ⟨before, e, after, vs, rfl, hbefore, he | ⟨he, rfl⟩⟩ := evalItems_error hitems
      · obtain ⟨sub, hsub, hraises⟩ := ih e (by simp) he
        exact ⟨sub, .item hbefore hsub, hraises⟩
      · exact ⟨_, .here _, .absent hbefore he⟩
    · cases h
  | record fields ih =>
    rw [eval, Noted.bind_error_iff] at h
    obtain hfields | ⟨_, _, h⟩ := h
    · obtain ⟨before, name, e, after, vs, rfl, hbefore, he⟩ := evalFields_error hfields
      obtain ⟨sub, hsub, hraises⟩ := ih (name, e) (by simp) he
      exact ⟨sub, .field hbefore hsub, hraises⟩
    · cases h
  | ref name => exact ⟨.ref name, .here _, .lookup h⟩
  | call f args ih =>
    rw [eval, Noted.bind_error_iff] at h
    obtain hargs | ⟨vs, hvs, h⟩ := h
    · obtain ⟨before, e, after, vs, rfl, hbefore, he⟩ := evalArgs_error hargs
      obtain ⟨sub, hsub, hraises⟩ := ih e (by simp) he
      exact ⟨sub, .argument hbefore hsub, hraises⟩
    · rw [outcome_apply] at h
      exact ⟨.call f args, .here _, .call hvs h⟩

end Expr

/-- The error is about an answer that cannot stand in its place in an endpoint or a rejection. -/
def EvalError.IsMisplaced : EvalError → Prop
  | .notText _ _ | .absentProperty _ => True
  | _ => False

/-- The expressions of an endpoint that are evaluated: the URL, then the values of the headers, then
the properties, each after all before it have had the answers that they must have. -/
inductive EndpointBody.Reaches (ctx : WalkContext) (env : Environment) (path : Text)
    (body : EndpointBody) : Expr → Prop
  | url : Reaches ctx env path body body.url
  | header {url : Text} {before : List (Text × List Expr)} {name : Text}
      {earlier : List Expr} {e : Expr} {later : List Expr} {after : List (Text × List Expr)}
      {texts : List (Text × List Text)} {values : List Text} :
      (body.url.evalText ctx.registry env (path ++ ".endpoint.url")).outcome = .ok url →
      body.headers = before ++ (name, earlier ++ e :: later) :: after →
      (ctx.headers env path before).outcome = .ok texts →
      (ctx.headerValues env (path ++ ".endpoint.headers." ++ name) earlier).outcome = .ok values →
      Reaches ctx env path body e
  | property {url : Text} {texts : List (Text × List Text)}
      {before : List (Text × Expr)} {name : Text} {e : Expr} {after : List (Text × Expr)}
      {values : List (Text × Json)} :
      (body.url.evalText ctx.registry env (path ++ ".endpoint.url")).outcome = .ok url →
      (ctx.headers env path body.headers).outcome = .ok texts →
      body.properties = before ++ (name, e) :: after →
      (ctx.properties env path before).outcome = .ok values →
      Reaches ctx env path body e

theorem EndpointBody.Reaches.mem_exprs {ctx : WalkContext} {env : Environment} {path : Text}
    {body : EndpointBody} {e : Expr} (h : body.Reaches ctx env path e) : e ∈ body.exprs := by
  rw [EndpointBody.mem_exprs]
  cases h with
  | url => exact .inl rfl
  | @header _ before name earlier e later after _ _ _ hsplit _ _ =>
    refine .inr (.inr ⟨(name, earlier ++ e :: later), ?_, by simp⟩)
    rw [hsplit]
    exact List.mem_append_right _ List.mem_cons_self
  | @property _ _ before name e after _ _ _ hsplit _ =>
    refine .inr (.inl ⟨(name, e), ?_, rfl⟩)
    rw [hsplit]
    exact List.mem_append_right _ List.mem_cons_self

/-- Where a walk stands when it evaluates an expression. The trail holds the conditions that hold
so far, rule by rule from the outermost inwards. -/
structure Moment where
  trail : List (List Condition)
  env : Environment
  expr : Expr

/-- The moments at which a rule that is tried evaluates one of its expressions, or a rule below it
does. -/
inductive Rule.Reaches (ctx : WalkContext) :
    List (List Condition) → Environment → Rule → Moment → Prop
  | condition {trail : List (List Condition)} {env : Environment} {rule : Rule}
      {before : List Condition} {c : Condition} {after : List Condition} {inner : Environment} :
      rule.conditions = before ++ c :: after →
      (ctx.holds? rule.path env 0 before).outcome = .ok (some inner) →
      Reaches ctx trail env rule ⟨trail ++ [before], inner, c.expr⟩
  | endpoint {trail : List (List Condition)} {env : Environment} {head : RuleHead}
      {body : EndpointBody} {inner : Environment} {e : Expr} :
      (ctx.holds? head.path env 0 head.conditions).outcome = .ok (some inner) →
      body.Reaches ctx inner head.path e →
      Reaches ctx trail env (.endpoint head body) ⟨trail ++ [head.conditions], inner, e⟩
  | message {trail : List (List Condition)} {env : Environment} {head : RuleHead}
      {message : Expr} {inner : Environment} :
      (ctx.holds? head.path env 0 head.conditions).outcome = .ok (some inner) →
      Reaches ctx trail env (.error head message) ⟨trail ++ [head.conditions], inner, message⟩
  | child {trail : List (List Condition)} {env : Environment} {head : RuleHead}
      {before : List Rule} {rule : Rule} {after : List Rule} {inner : Environment} {m : Moment} :
      (ctx.holds? head.path env 0 head.conditions).outcome = .ok (some inner) →
      (ctx.tryRules inner before).outcome = .ok none →
      Reaches ctx (trail ++ [head.conditions]) inner.push rule m →
      Reaches ctx trail env (.tree head (before ++ rule :: after)) m

/-- The moments of a resolution from a frame, parts of expressions included. -/
def Resolver.Evaluates (res : Resolver) (frame : Frame) (m : Moment) : Prop :=
  ∃ before rule after e, res.ruleSet.rules = before ++ rule :: after ∧
    (res.context.tryRules (.ofFrame frame) before).outcome = .ok none ∧
    rule.Reaches res.context [] (Environment.ofFrame frame).push ⟨m.trail, m.env, e⟩ ∧
    e.Reaches res.registry m.env m.expr

namespace WalkContext
variable {ctx : WalkContext} {env : Environment}

/-- Every error of an endpoint comes from an expression that is evaluated for it. -/
private theorem endpoint_error {path : Text} {body : EndpointBody} {err : EvalError}
    (h : (ctx.endpoint env path body).outcome = .error err) :
    ∃ e, body.Reaches ctx env path e ∧
      ((e.eval ctx.registry env).outcome = .error err ∨ err.IsMisplaced) := by
  rw [endpoint, Noted.bind_error_iff] at h
  obtain hurl | ⟨url, hurl, h⟩ := h
  · refine ⟨body.url, .url, ?_⟩
    obtain he | ⟨_, rfl⟩ := Expr.evalText_error hurl
    · exact .inl he
    · exact .inr trivial
  · obtain hheaders | ⟨texts, htexts, h⟩ := Noted.bind_error_iff.mp h
    · obtain
        ⟨before, name, earlier, e, later, after, texts, values, hsplit, hbefore, hearlier, he⟩ :=
        headers_error hheaders
      refine ⟨e, .header hurl hsplit hbefore hearlier, ?_⟩
      obtain he | ⟨_, rfl⟩ := Expr.evalText_error he
      · exact .inl he
      · exact .inr trivial
    · obtain hproperties | ⟨_, _, h⟩ := Noted.bind_error_iff.mp h
      · obtain ⟨before, name, e, after, values, hsplit, hbefore, he⟩ :=
          properties_error hproperties
        refine ⟨e, .property hurl htexts hsplit hbefore, ?_⟩
        obtain he | ⟨_, rfl⟩ := he
        · exact .inl he
        · exact .inr trivial
      · cases h

/-- A rule ends in an error of one of its conditions, or in one of what it gives. -/
private theorem tryRule_error_cases {rule : Rule} {err : EvalError} (trail : List (List Condition))
    (h : (ctx.tryRule env rule).outcome = .error err) :
    (∃ m, rule.Reaches ctx trail env m ∧ (m.expr.eval ctx.registry m.env).outcome = .error err) ∨
      ∃ inner, (ctx.holds? rule.path env 0 rule.conditions).outcome = .ok (some inner) ∧
        (ctx.enter inner rule).outcome = .error err := by
  rw [outcome_tryRule] at h
  cases htest : env.test ctx.registry rule.conditions with
  | error e =>
    rw [Environment.behind_of_error htest] at h
    cases h
    obtain ⟨before, c, after, inner, hsplit, hbefore, he⟩ := Environment.test_error htest
    exact .inl ⟨_, .condition hsplit ((outcome_holds? 0 before).trans hbefore), he⟩
  | ok found =>
    cases found with
    | none =>
      rw [Environment.behind_of_fails htest] at h
      cases h
    | some inner =>
      rw [Environment.behind_of_holds htest] at h
      exact .inr ⟨inner, (outcome_holds? 0 _).trans htest, h⟩

/-- Every error of a rule that is tried comes from an expression that is evaluated for it. -/
private theorem tryRule_error {rule : Rule} {err : EvalError} (trail : List (List Condition))
    (h : (ctx.tryRule env rule).outcome = .error err) :
    ∃ m, rule.Reaches ctx trail env m ∧
      ((m.expr.eval ctx.registry m.env).outcome = .error err ∨ err.IsMisplaced) := by
  induction rule using Rule.ind generalizing trail env with
  | endpoint head body =>
    obtain ⟨m, hm, he⟩ | ⟨inner, hholds, h⟩ := tryRule_error_cases trail h
    · exact ⟨m, hm, .inl he⟩
    · obtain hbody | ⟨_, _, h⟩ := Noted.bind_error_iff.mp h
      · obtain ⟨e, he, herr⟩ := endpoint_error hbody
        exact ⟨_, .endpoint hholds he, herr⟩
      · cases h
  | error head message =>
    obtain ⟨m, hm, he⟩ | ⟨inner, hholds, h⟩ := tryRule_error_cases trail h
    · exact ⟨m, hm, .inl he⟩
    · refine ⟨_, .message hholds, ?_⟩
      obtain hmessage | ⟨_, _, h⟩ := Noted.bind_error_iff.mp h
      · obtain htext | ⟨_, _, h⟩ := Noted.bind_error_iff.mp hmessage
        · obtain he | ⟨_, rfl⟩ := Expr.evalText_error htext
          · exact .inl he
          · exact .inr trivial
        · cases h
      · cases h
  | tree head rules ih =>
    obtain ⟨m, hm, he⟩ | ⟨inner, hholds, h⟩ := tryRule_error_cases trail h
    · exact ⟨m, hm, .inl he⟩
    · obtain ⟨before, rule, after, rfl, hbefore, hrule⟩ := tryRules_error h
      obtain ⟨m, hm, herr⟩ := ih rule (by simp) (trail ++ [head.conditions]) hrule
      exact ⟨m, .child hholds hbefore hm, herr⟩

end WalkContext

/-- Every error of an evaluation that ends a resolution is raised at an occurrence that the
resolution evaluates, or an answer cannot stand in its place. -/
theorem Resolver.exists_raises {res : Resolver} {frame : Frame} {err : EvalError}
    (h : (res.resolveBound frame).outcome = .error (.eval err)) :
    (∃ m, res.Evaluates frame m ∧ m.expr.Raises res.registry m.env err) ∨ err.IsMisplaced := by
  rw [resolveBound, WalkContext.outcome_walk] at h
  split at h
  · cases h
  · cases h
  · next e hrules =>
    cases h
    obtain ⟨before, rule, after, hsplit, hbefore, hrule⟩ := WalkContext.tryRules_error hrules
    obtain ⟨m, hm, he | hmisplaced⟩ := WalkContext.tryRule_error [] hrule
    · obtain ⟨sub, hsub, hraises⟩ := Expr.exists_raises he
      exact .inl ⟨⟨m.trail, m.env, sub⟩, ⟨before, rule, after, m.expr, hsplit, hbefore, hm, hsub⟩,
        hraises⟩
    · exact .inr hmisplaced

end EndpointRules
