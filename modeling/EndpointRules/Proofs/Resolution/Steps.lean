import EndpointRules.Proofs.Outcome
import EndpointRules.Resolver
import Mathlib.Data.List.Forall2

/-! The outcomes of a walk, step by step. They do not depend on what is noted: how conditions, parts
of expressions and rules end is said in terms of the functions alone. -/

namespace EndpointRules
variable {r : Registry} {env : Environment}

/-! Parts of expressions. -/

namespace Expr

theorem evalArgs_ok_iff {args : List Expr} {vs : List (Option Value)} :
    (evalArgs r env args).outcome = .ok vs ↔
      List.Forall₂ (fun e v => (e.eval r env).outcome = .ok v) args vs := by
  induction args generalizing vs with
  | nil =>
    constructor
    · rintro ⟨⟩
      exact .nil
    · rintro ⟨⟩
      rfl
  | cons e rest ih =>
    simp only [evalArgs, Noted.bind_ok_iff, ih]
    constructor
    · rintro ⟨v, hv, others, hothers, h⟩
      cases h
      exact .cons hv hothers
    · rintro (_ | ⟨hv, hothers⟩)
      exact ⟨_, hv, _, hothers, rfl⟩

theorem evalItems_ok_iff {items : List Expr} {vs : List Value} :
    (evalItems r env items).outcome = .ok vs ↔
      List.Forall₂ (fun e v => (e.eval r env).outcome = .ok (some v)) items vs := by
  induction items generalizing vs with
  | nil =>
    constructor
    · rintro ⟨⟩
      exact .nil
    · rintro ⟨⟩
      rfl
  | cons e rest ih =>
    simp only [evalItems, Noted.bind_ok_iff]
    constructor
    · rintro ⟨_ | v, hv, h⟩
      · cases h
      · obtain ⟨others, hothers, h⟩ := Noted.bind_ok_iff.mp h
        cases h
        exact .cons hv (ih.mp hothers)
    · rintro (_ | ⟨hv, hothers⟩)
      exact ⟨some _, hv, Noted.bind_ok_iff.mpr ⟨_, ih.mpr hothers, rfl⟩⟩

theorem evalArgs_error {args : List Expr} {err : EvalError}
    (h : (evalArgs r env args).outcome = .error err) :
    ∃ before e after vs, args = before ++ e :: after ∧
      (evalArgs r env before).outcome = .ok vs ∧ (e.eval r env).outcome = .error err := by
  induction args with
  | nil => cases h
  | cons e rest ih =>
    rw [evalArgs, Noted.bind_error_iff] at h
    obtain he | ⟨v, hv, h⟩ := h
    · exact ⟨[], e, rest, [], rfl, rfl, he⟩
    · obtain hrest | ⟨_, _, h⟩ := Noted.bind_error_iff.mp h
      · obtain ⟨before, e', after, vs, rfl, hbefore, he⟩ := ih hrest
        refine ⟨e :: before, e', after, v :: vs, rfl, ?_, he⟩
        exact evalArgs_ok_iff.mpr (.cons hv (evalArgs_ok_iff.mp hbefore))
      · cases h

/-- Items end in the error of the first one that has an error or no value. -/
theorem evalItems_error {items : List Expr} {err : EvalError}
    (h : (evalItems r env items).outcome = .error err) :
    ∃ before e after vs, items = before ++ e :: after ∧
      (evalItems r env before).outcome = .ok vs ∧
      ((e.eval r env).outcome = .error err ∨
        (e.eval r env).outcome = .ok none ∧ err = .absentElement) := by
  induction items with
  | nil => cases h
  | cons e rest ih =>
    rw [evalItems, Noted.bind_error_iff] at h
    obtain he | ⟨_ | v, hv, h⟩ := h
    · exact ⟨[], e, rest, [], rfl, rfl, .inl he⟩
    · cases h
      exact ⟨[], e, rest, [], rfl, rfl, .inr ⟨hv, rfl⟩⟩
    · obtain hrest | ⟨_, _, h⟩ := Noted.bind_error_iff.mp h
      · obtain ⟨before, e', after, vs, rfl, hbefore, he⟩ := ih hrest
        refine ⟨e :: before, e', after, v :: vs, rfl, ?_, he⟩
        exact evalItems_ok_iff.mpr (.cons hv (evalItems_ok_iff.mp hbefore))
      · cases h

private theorem evalFields_cons_ok (name : Text) {e : Expr} {rest : List (Text × Expr)}
    {v : Option Value} {vs : List (Text × Value)} (hv : (e.eval r env).outcome = .ok v)
    (hrest : (evalFields r env rest).outcome = .ok vs) :
    ∃ all, (evalFields r env ((name, e) :: rest)).outcome = .ok all := by
  rw [evalFields, Noted.outcome_bind_of_ok hv, Noted.outcome_bind_of_ok hrest]
  cases v with
  | none => exact ⟨vs, rfl⟩
  | some v => exact ⟨(name, v) :: vs, rfl⟩

theorem evalFields_error {fields : List (Text × Expr)} {err : EvalError}
    (h : (evalFields r env fields).outcome = .error err) :
    ∃ before name e after vs, fields = before ++ (name, e) :: after ∧
      (evalFields r env before).outcome = .ok vs ∧ (e.eval r env).outcome = .error err := by
  induction fields with
  | nil => cases h
  | cons field rest ih =>
    obtain ⟨name, e⟩ := field
    rw [evalFields, Noted.bind_error_iff] at h
    obtain he | ⟨v, hv, h⟩ := h
    · exact ⟨[], name, e, rest, [], rfl, rfl, he⟩
    · obtain hrest | ⟨_, _, h⟩ := Noted.bind_error_iff.mp h
      · obtain ⟨before, name', e', after, vs, rfl, hbefore, he⟩ := ih hrest
        obtain ⟨all, hall⟩ := evalFields_cons_ok name hv hbefore
        exact ⟨(name, e) :: before, name', e', after, all, rfl, hall, he⟩
      · cases v <;> cases h

theorem outcome_apply (name : Name) (args : List (Option Value)) :
    (r.apply name args).outcome = r.call name args := by
  rw [Registry.apply, Noted.outcome_bind]
  rfl

/-- An expression that has to be text ends in an error of its own, or in a value of another kind. -/
theorem evalText_error {context : Text} {e : Expr} {err : EvalError}
    (h : (e.evalText r env context).outcome = .error err) :
    (e.eval r env).outcome = .error err ∨ ∃ got, err = .notText context got := by
  rw [evalText, Noted.bind_error_iff] at h
  obtain he | ⟨v, _, h⟩ := h
  · exact .inl he
  · split at h
    · cases h
    · cases h
      exact .inr ⟨_, rfl⟩

end Expr

/-! Conditions. -/

namespace Environment

/-- The environment behind a condition whose value holds. -/
def pass (env : Environment) (c : Condition) (v : Option Value) : Environment :=
  match c.assign with
  | some name => env.bind name v
  | none => env

/-- The outcome of conditions that follow one another. -/
def test (r : Registry) (env : Environment) :
    List Condition → Except EvalError (Option Environment)
  | [] => .ok (some env)
  | c :: rest => do
    let v ← (c.expr.eval r env).outcome
    if Value.isTruthy v then (env.pass c v).test r rest else return none

section
variable {c : Condition} {rest : List Condition} {v : Option Value}

theorem test_cons_of_error {err : EvalError} (h : (c.expr.eval r env).outcome = .error err) :
    env.test r (c :: rest) = .error err := by
  rw [test, h]
  rfl

theorem test_cons_of_true (h : (c.expr.eval r env).outcome = .ok v)
    (hv : Value.isTruthy v = true) : env.test r (c :: rest) = (env.pass c v).test r rest := by
  rw [test, h]
  exact if_pos hv

theorem test_cons_of_false (h : (c.expr.eval r env).outcome = .ok v)
    (hv : Value.isTruthy v = false) : env.test r (c :: rest) = .ok none := by
  rw [test, h]
  exact if_neg (Bool.not_eq_true _ ▸ hv)

theorem test_cons_some {inner : Environment} (h : env.test r (c :: rest) = .ok (some inner)) :
    ∃ v, (c.expr.eval r env).outcome = .ok v ∧ (env.pass c v).test r rest = .ok (some inner) := by
  cases hc : (c.expr.eval r env).outcome with
  | error e => cases (test_cons_of_error hc).symm.trans h
  | ok v =>
    cases hv : Value.isTruthy v with
    | false => cases (test_cons_of_false hc hv).symm.trans h
    | true => exact ⟨v, rfl, (test_cons_of_true hc hv).symm.trans h⟩

end

/-- What comes behind conditions: nothing unless they hold. -/
def behind {α : Type} (r : Registry) (env : Environment) (conditions : List Condition)
    (next : Environment → Except EvalError (Option α)) : Except EvalError (Option α) :=
  match env.test r conditions with
  | .ok (some inner) => next inner
  | .ok none => .ok none
  | .error e => .error e

section
variable {α : Type} {conditions : List Condition} {next : Environment → Except EvalError (Option α)}

theorem behind_of_holds {inner : Environment} (h : env.test r conditions = .ok (some inner)) :
    env.behind r conditions next = next inner := by
  rw [behind, h]

theorem behind_of_fails (h : env.test r conditions = .ok none) :
    env.behind r conditions next = .ok none := by
  rw [behind, h]

theorem behind_of_error {e : EvalError} (h : env.test r conditions = .error e) :
    env.behind r conditions next = .error e := by
  rw [behind, h]

end

/-- Something comes from behind conditions only if they hold. -/
theorem behind_some {α : Type} {conditions : List Condition}
    {next : Environment → Except EvalError (Option α)} {a : α}
    (h : env.behind r conditions next = .ok (some a)) :
    ∃ inner, env.test r conditions = .ok (some inner) ∧ next inner = .ok (some a) := by
  cases htest : env.test r conditions with
  | error e => cases (behind_of_error htest).symm.trans h
  | ok found =>
    cases found with
    | none => cases (behind_of_fails htest).symm.trans h
    | some inner => exact ⟨inner, rfl, (behind_of_holds htest).symm.trans h⟩

theorem test_append (conditions more : List Condition) :
    env.test r (conditions ++ more) = env.behind r conditions fun inner => inner.test r more := by
  induction conditions generalizing env with
  | nil => rfl
  | cons c rest ih =>
    rw [List.cons_append, behind]
    cases hc : (c.expr.eval r env).outcome with
    | error e => rw [test_cons_of_error hc, test_cons_of_error hc]
    | ok v =>
      cases hv : Value.isTruthy v with
      | false => rw [test_cons_of_false hc hv, test_cons_of_false hc hv]
      | true =>
        rw [test_cons_of_true hc hv, test_cons_of_true hc hv, ih]
        rfl

theorem behind_append {α : Type} (conditions more : List Condition)
    (next : Environment → Except EvalError (Option α)) :
    env.behind r (conditions ++ more) next =
      env.behind r conditions fun inner => inner.behind r more next := by
  cases htest : env.test r conditions with
  | error e =>
    rw [behind_of_error htest, behind_of_error]
    rw [test_append, behind_of_error htest]
  | ok found =>
    cases found with
    | none =>
      rw [behind_of_fails htest, behind_of_fails]
      rw [test_append, behind_of_fails htest]
    | some inner => rw [behind_of_holds htest, behind, behind, test_append, behind_of_holds htest]

/-- Conditions end in the error of the first one that has an error; those before it hold. -/
theorem test_error {conditions : List Condition} {err : EvalError}
    (h : env.test r conditions = .error err) :
    ∃ before c after inner, conditions = before ++ c :: after ∧
      env.test r before = .ok (some inner) ∧ (c.expr.eval r inner).outcome = .error err := by
  induction conditions generalizing env with
  | nil => cases h
  | cons c rest ih =>
    cases hc : (c.expr.eval r env).outcome with
    | error e =>
      cases (test_cons_of_error hc).symm.trans h
      exact ⟨[], c, rest, env, rfl, rfl, hc⟩
    | ok v =>
      cases hv : Value.isTruthy v with
      | false => cases (test_cons_of_false hc hv).symm.trans h
      | true =>
        rw [test_cons_of_true hc hv] at h
        obtain ⟨before, c', after, inner, rfl, hbefore, he⟩ := ih h
        exact ⟨c :: before, c', after, inner, rfl, (test_cons_of_true hc hv).trans hbefore, he⟩

end Environment

/-! Rules. -/

namespace WalkContext
variable {ctx : WalkContext} {path : Text}

/-- The conditions of a rule end as they are tested, whatever is noted about them. -/
theorem outcome_holds? (index : Nat) (conditions : List Condition) :
    (ctx.holds? path env index conditions).outcome = env.test ctx.registry conditions := by
  induction conditions generalizing env index with
  | nil => rfl
  | cons c rest ih =>
    rw [holds?]
    cases hc : (c.expr.eval ctx.registry env).outcome with
    | error e => rw [Noted.outcome_bind_of_error hc, Environment.test_cons_of_error hc]
    | ok v =>
      rw [Noted.outcome_bind_of_ok hc]
      cases hv : Value.isTruthy v with
      | false =>
        rw [Environment.test_cons_of_false hc hv]
        rfl
      | true =>
        rw [Environment.test_cons_of_true hc hv, if_pos rfl]
        exact ih (index + 1)

private theorem headerValues_error {context : Text} {values : List Expr} {err : EvalError}
    (h : (ctx.headerValues env context values).outcome = .error err) :
    ∃ before e after texts, values = before ++ e :: after ∧
      (ctx.headerValues env context before).outcome = .ok texts ∧
      (e.evalText ctx.registry env context).outcome = .error err := by
  induction values with
  | nil => cases h
  | cons e rest ih =>
    rw [headerValues, Noted.bind_error_iff] at h
    obtain he | ⟨s, hs, h⟩ := h
    · exact ⟨[], e, rest, [], rfl, rfl, he⟩
    · obtain hrest | ⟨_, _, h⟩ := Noted.bind_error_iff.mp h
      · obtain ⟨before, e', after, texts, rfl, hbefore, he⟩ := ih hrest
        refine ⟨e :: before, e', after, s :: texts, rfl, ?_, he⟩
        rw [headerValues, Noted.outcome_bind_of_ok hs, Noted.outcome_bind_of_ok hbefore]
        rfl
      · cases h

/-- Headers end in the error of the first value that is no text. -/
theorem headers_error {headers : List (Text × List Expr)} {err : EvalError}
    (h : (ctx.headers env path headers).outcome = .error err) :
    ∃ before name earlier e later after texts values,
      headers = before ++ (name, earlier ++ e :: later) :: after ∧
      (ctx.headers env path before).outcome = .ok texts ∧
      (ctx.headerValues env (path ++ ".endpoint.headers." ++ name) earlier).outcome = .ok values ∧
      (e.evalText ctx.registry env (path ++ ".endpoint.headers." ++ name)).outcome =
        .error err := by
  induction headers with
  | nil => cases h
  | cons header rest ih =>
    obtain ⟨name, exprs⟩ := header
    rw [WalkContext.headers, Noted.bind_error_iff] at h
    obtain hexprs | ⟨values, hvalues, h⟩ := h
    · obtain ⟨earlier, e, later, values, rfl, hvalues, he⟩ := headerValues_error hexprs
      exact ⟨[], name, earlier, e, later, rest, [], values, rfl, rfl, hvalues, he⟩
    · obtain hrest | ⟨_, _, h⟩ := Noted.bind_error_iff.mp h
      · obtain ⟨before, name', earlier, e, later, after, texts, values', rfl, hbefore, he⟩ :=
          ih hrest
        refine ⟨(name, exprs) :: before, name', earlier, e, later, after, (name, values) :: texts,
          values', rfl, ?_, he⟩
        rw [WalkContext.headers, Noted.outcome_bind_of_ok hvalues, Noted.outcome_bind_of_ok hbefore]
        rfl
      · cases h

/-- Properties end in the error of the first one that has an error or no value. -/
theorem properties_error {properties : List (Text × Expr)} {err : EvalError}
    (h : (ctx.properties env path properties).outcome = .error err) :
    ∃ before name e after values, properties = before ++ (name, e) :: after ∧
      (ctx.properties env path before).outcome = .ok values ∧
      ((e.eval ctx.registry env).outcome = .error err ∨
        ∃ context, err = .absentProperty context) := by
  induction properties with
  | nil => cases h
  | cons property rest ih =>
    obtain ⟨name, e⟩ := property
    rw [WalkContext.properties, Noted.bind_error_iff] at h
    obtain he | ⟨_ | v, hv, h⟩ := h
    · exact ⟨[], name, e, rest, [], rfl, rfl, .inl he⟩
    · cases h
      exact ⟨[], name, e, rest, [], rfl, rfl, .inr ⟨_, rfl⟩⟩
    · obtain hrest | ⟨_, _, h⟩ := Noted.bind_error_iff.mp h
      · obtain ⟨before, name', e', after, values, rfl, hbefore, he⟩ := ih hrest
        refine ⟨(name, e) :: before, name', e', after, (name, v.toJson) :: values, rfl, ?_, he⟩
        rw [WalkContext.properties, Noted.outcome_bind_of_ok hv]
        dsimp only
        rw [Noted.outcome_bind_of_ok hbefore]
        rfl
      · cases h

/-- What a rule gives once its conditions hold. -/
def enter (ctx : WalkContext) (inner : Environment) : Rule → Run EvalError (Option Resolution)
  | .endpoint head body => do return some (← ctx.endpoint inner head.path body)
  | .error head message => do return some (← ctx.rejection inner head.path message)
  | .tree _ rules => ctx.tryRules inner rules

/-- An endpoint or an error that is entered gives something, unless there is an error. -/
theorem enter_ne_none {rule : Rule} (hk : rule.kind ≠ .tree) (inner : Environment) :
    (ctx.enter inner rule).outcome ≠ .ok none := by
  intro h
  cases rule with
  | endpoint head body =>
    obtain ⟨_, _, h⟩ := Noted.bind_ok_iff.mp h
    cases h
  | error head message =>
    obtain ⟨_, _, h⟩ := Noted.bind_ok_iff.mp h
    cases h
  | tree head rules => exact hk rfl

/-- What is done for a rule behind the report that it is matched. -/
def finish (ctx : WalkContext) (inner : Environment) : Rule → Run EvalError (Option Resolution)
  | .endpoint head body => do return some (← ctx.endpoint inner head.path body)
  | .error head message => do return some (← ctx.rejection inner head.path message)
  | .tree head rules => do
    match ← ctx.tryRules inner rules with
    | some result => return some result
    | none =>
      ctx.visit (.exhausted head.path)
      return none

/-- Rules of all kinds are tested and reported alike. -/
theorem tryRule_eq (rule : Rule) :
    ctx.tryRule env rule = (do
      match ← ctx.holds? rule.path env 0 rule.conditions with
      | none => return none
      | some inner =>
        ctx.visit (.matched rule.kind rule.path)
        ctx.finish inner rule) := by
  cases rule <;> rfl

private theorem outcome_finish (rule : Rule) (inner : Environment) :
    (ctx.finish inner rule).outcome = (ctx.enter inner rule).outcome := by
  cases rule with
  | endpoint head body => rfl
  | error head message => rfl
  | tree head rules =>
    rw [finish, enter, Noted.outcome_bind]
    cases (ctx.tryRules inner rules).outcome with
    | error e => rfl
    | ok found => cases found <;> rfl

/-- A rule is tested, and entered where its conditions lead. -/
theorem outcome_tryRule (rule : Rule) :
    (ctx.tryRule env rule).outcome =
      env.behind ctx.registry rule.conditions fun inner => (ctx.enter inner rule).outcome := by
  rw [tryRule_eq, Noted.outcome_bind, outcome_holds?, Environment.behind]
  cases env.test ctx.registry rule.conditions with
  | error e => rfl
  | ok found =>
    cases found with
    | none => rfl
    | some inner => exact outcome_finish rule inner

/-- The first rule that gives something decides. -/
theorem outcome_tryRules_cons (rule : Rule) (rest : List Rule) :
    (ctx.tryRules env (rule :: rest)).outcome = (do
      match ← (ctx.tryRule env.push rule).outcome with
      | some result => return some result
      | none => (ctx.tryRules env rest).outcome) := by
  rw [tryRules, Noted.outcome_bind]
  cases (ctx.tryRule env.push rule).outcome with
  | error e => rfl
  | ok found => cases found <;> rfl

theorem outcome_tryRules_append (rules more : List Rule) :
    (ctx.tryRules env (rules ++ more)).outcome = (do
      match ← (ctx.tryRules env rules).outcome with
      | some result => return some result
      | none => (ctx.tryRules env more).outcome) := by
  induction rules with
  | nil => rfl
  | cons rule rest ih =>
    rw [List.cons_append, outcome_tryRules_cons, outcome_tryRules_cons, ih]
    cases (ctx.tryRule env.push rule).outcome with
    | error e => rfl
    | ok found => cases found <;> rfl

theorem tryRules_none_iff {rules : List Rule} :
    (ctx.tryRules env rules).outcome = .ok none ↔
      ∀ rule ∈ rules, (ctx.tryRule env.push rule).outcome = .ok none := by
  induction rules with
  | nil => exact ⟨fun _ _ h => absurd h List.not_mem_nil, fun _ => rfl⟩
  | cons rule rest ih =>
    rw [outcome_tryRules_cons, List.forall_mem_cons, ← ih]
    cases (ctx.tryRule env.push rule).outcome with
    | error e =>
      constructor
      · intro h
        cases h
      · rintro ⟨h, -⟩
        cases h
    | ok found =>
      cases found with
      | some result =>
        constructor
        · intro h
          cases h
        · rintro ⟨h, -⟩
          cases h
      | none => exact ⟨fun h => ⟨rfl, h⟩, fun h => h.2⟩

/-- Unless all rules give nothing, the first one that does not decides. -/
theorem tryRules_decided {rules : List Rule} (h : (ctx.tryRules env rules).outcome ≠ .ok none) :
    ∃ before rule after, rules = before ++ rule :: after ∧
      (ctx.tryRules env before).outcome = .ok none ∧
      (ctx.tryRule env.push rule).outcome = (ctx.tryRules env rules).outcome := by
  induction rules with
  | nil => exact absurd rfl h
  | cons rule rest ih =>
    rw [outcome_tryRules_cons] at h ⊢
    cases hrule : (ctx.tryRule env.push rule).outcome with
    | error e => exact ⟨[], rule, rest, rfl, rfl, hrule⟩
    | ok found =>
      rw [hrule] at h
      cases found with
      | some result => exact ⟨[], rule, rest, rfl, rfl, hrule⟩
      | none =>
        obtain ⟨before, rule', after, rfl, hbefore, hdecides⟩ := ih h
        refine ⟨rule :: before, rule', after, rfl, ?_, hdecides⟩
        rw [outcome_tryRules_cons, hrule]
        exact hbefore

/-- Rules end in the error of the first one that has an error; those before it give nothing. -/
theorem tryRules_error {rules : List Rule} {err : EvalError}
    (h : (ctx.tryRules env rules).outcome = .error err) :
    ∃ before rule after, rules = before ++ rule :: after ∧
      (ctx.tryRules env before).outcome = .ok none ∧
      (ctx.tryRule env.push rule).outcome = .error err := by
  have hne : (ctx.tryRules env rules).outcome ≠ .ok none := by
    rw [h]
    nofun
  obtain ⟨before, rule, after, hsplit, hbefore, hdecides⟩ := tryRules_decided hne
  exact ⟨before, rule, after, hsplit, hbefore, hdecides.trans h⟩

/-- A walk gives what its rules give; that they give nothing is an error. -/
theorem outcome_walk (frame : Frame) (rules : List Rule) :
    (ctx.walk frame rules).outcome =
      match (ctx.tryRules (.ofFrame frame) rules).outcome with
      | .ok (some result) => .ok result
      | .ok none => .error .unresolved
      | .error e => .error (.eval e) := by
  rw [walk, Noted.outcome_bind, Noted.outcome_mapError]
  cases (ctx.tryRules (.ofFrame frame) rules).outcome with
  | error e => rfl
  | ok found => cases found <;> rfl

theorem walk_unresolved_iff {rules : List Rule} {frame : Frame} :
    (ctx.walk frame rules).outcome = .error .unresolved ↔
      (ctx.tryRules (.ofFrame frame) rules).outcome = .ok none := by
  rw [outcome_walk]
  cases (ctx.tryRules (.ofFrame frame) rules).outcome with
  | error e => constructor <;> rintro ⟨⟩
  | ok found =>
    cases found with
    | none => exact ⟨fun _ => rfl, fun _ => rfl⟩
    | some result => constructor <;> rintro ⟨⟩

end WalkContext
end EndpointRules
