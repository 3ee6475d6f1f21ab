import EndpointRules.Proofs.Resolution.Course
import EndpointRules.Proofs.Typing.Values

/-! What a walk notes, step by step, when functions note nothing themselves: expressions add
nothing, and each rule that is tried adds what its conditions and its own kind give rise to. -/

namespace EndpointRules

/-! Evaluation without notes. -/

namespace Noted
variable {ω ε α β : Type}

/-- A sequence notes nothing if no step of it does. -/
private theorem notes_bind_nil {x : Noted ω ε α} {f : α → Noted ω ε β} (hx : x.notes = [])
    (hf : ∀ a, (f a).notes = []) : (x >>= f).notes = [] := by
  cases h : x.outcome with
  | error e => rw [notes_bind_error x f h, hx]
  | ok a => rw [notes_bind_ok x f h, hx, hf, List.append_nil]

end Noted

namespace Registry

/-- None of the functions notes its calls. -/
def Silent (r : Registry) : Prop := ∀ f ∈ r.functions, f.recording = false

theorem standard_silent : Registry.standard.Silent := by
  unfold Silent
  decide

variable {r : Registry} {env : Environment} {ctx : WalkContext}

private theorem Silent.notes_apply (h : r.Silent) (name : Name) (args : List (Option Value)) :
    (r.apply name args).notes = [] := by
  cases hget : r.getFor name args.length with
  | error e =>
    rw [apply, hget]
    rfl
  | ok f =>
    obtain ⟨s, -, hfind, -⟩ := getFor_ok_iff.mp hget
    have hsilent : f.recording = false := h f (List.mem_of_find?_eq_some hfind)
    rw [apply, hget, Noted.notes_bind_ok _ _ (Noted.outcome_ofExcept _), hsilent]
    rfl

private theorem notes_evalItems {items : List Expr} (h : ∀ e ∈ items, (e.eval r env).notes = []) :
    (Expr.evalItems r env items).notes = [] := by
  induction items with
  | nil => rfl
  | cons e rest ih =>
    obtain ⟨he, hrest⟩ := List.forall_mem_cons.mp h
    refine Noted.notes_bind_nil he fun v => ?_
    cases v with
    | none => rfl
    | some v => exact Noted.notes_bind_nil (ih hrest) fun _ => rfl

private theorem notes_evalFields {fields : List (Text × Expr)}
    (h : ∀ field ∈ fields, (field.2.eval r env).notes = []) :
    (Expr.evalFields r env fields).notes = [] := by
  induction fields with
  | nil => rfl
  | cons field rest ih =>
    obtain ⟨he, hrest⟩ := List.forall_mem_cons.mp h
    refine Noted.notes_bind_nil he fun v => Noted.notes_bind_nil (ih hrest) fun others => ?_
    cases v <;> rfl

private theorem notes_evalArgs {args : List Expr} (h : ∀ e ∈ args, (e.eval r env).notes = []) :
    (Expr.evalArgs r env args).notes = [] := by
  induction args with
  | nil => rfl
  | cons e rest ih =>
    obtain ⟨he, hrest⟩ := List.forall_mem_cons.mp h
    exact Noted.notes_bind_nil he fun v => Noted.notes_bind_nil (ih hrest) fun _ => rfl

namespace Silent

/-- Expressions only note the calls of functions that want it. -/
private theorem notes_eval (h : r.Silent) (e : Expr) : (e.eval r env).notes = [] := by
  induction e using Expr.ind with
  | bool b => rfl
  | int n => rfl
  | template t => rfl
  | list items ih => exact Noted.notes_bind_nil (notes_evalItems ih) fun _ => rfl
  | record fields ih => exact Noted.notes_bind_nil (notes_evalFields ih) fun _ => rfl
  | ref name => rfl
  | call f args ih => exact Noted.notes_bind_nil (notes_evalArgs ih) fun vs => h.notes_apply f vs

private theorem notes_evalText (h : r.Silent) (context : Text) (e : Expr) :
    (e.evalText r env context).notes = [] := by
  refine Noted.notes_bind_nil (h.notes_eval e) fun v => ?_
  split <;> rfl

private theorem notes_headerValues (h : ctx.registry.Silent) (context : Text) (values : List Expr) :
    (ctx.headerValues env context values).notes = [] := by
  induction values with
  | nil => rfl
  | cons e rest ih =>
    exact Noted.notes_bind_nil (h.notes_evalText context e) fun s =>
      Noted.notes_bind_nil ih fun _ => rfl

private theorem notes_headers (h : ctx.registry.Silent) (path : Text)
    (headers : List (Text × List Expr)) : (ctx.headers env path headers).notes = [] := by
  induction headers with
  | nil => rfl
  | cons header rest ih =>
    exact Noted.notes_bind_nil (h.notes_headerValues _ header.2) fun texts =>
      Noted.notes_bind_nil ih fun _ => rfl

private theorem notes_properties (h : ctx.registry.Silent) (path : Text)
    (properties : List (Text × Expr)) : (ctx.properties env path properties).notes = [] := by
  induction properties with
  | nil => rfl
  | cons property rest ih =>
    refine Noted.notes_bind_nil (h.notes_eval property.2) fun v => ?_
    cases v with
    | none => rfl
    | some v => exact Noted.notes_bind_nil ih fun _ => rfl

/-- What is done for an endpoint or an error that is matched adds nothing to the log. -/
theorem notes_finish (h : ctx.registry.Silent) {rule : Rule} (hk : rule.kind ≠ .tree) :
    (ctx.finish env rule).notes = [] := by
  cases rule with
  | endpoint head body =>
    refine Noted.notes_bind_nil ?_ fun _ => rfl
    exact Noted.notes_bind_nil (h.notes_evalText _ body.url) fun url =>
      Noted.notes_bind_nil (h.notes_headers _ body.headers) fun headers =>
        Noted.notes_bind_nil (h.notes_properties _ body.properties) fun _ => rfl
  | error head message =>
    refine Noted.notes_bind_nil ?_ fun _ => rfl
    exact Noted.notes_bind_nil (h.notes_evalText _ message) fun _ => rfl
  | tree head rules => exact absurd rfl hk

end Silent
end Registry

/-! Tracing does not matter for outcomes. -/

namespace WalkContext
variable {r : Registry} {env : Environment}

private theorem headerValues_trace (trace trace' : Bool) (context : Text) (values : List Expr) :
    headerValues ⟨r, trace⟩ env context values = headerValues ⟨r, trace'⟩ env context values := by
  induction values with
  | nil => rfl
  | cons e rest ih => rw [headerValues, headerValues, ih]

private theorem headers_trace (trace trace' : Bool) (path : Text)
    (headers : List (Text × List Expr)) :
    WalkContext.headers ⟨r, trace⟩ env path headers =
      WalkContext.headers ⟨r, trace'⟩ env path headers := by
  induction headers with
  | nil => rfl
  | cons header rest ih => rw [WalkContext.headers, WalkContext.headers,
    headerValues_trace trace trace', ih]

private theorem properties_trace (trace trace' : Bool) (path : Text)
    (properties : List (Text × Expr)) :
    WalkContext.properties ⟨r, trace⟩ env path properties =
      WalkContext.properties ⟨r, trace'⟩ env path properties := by
  induction properties with
  | nil => rfl
  | cons property rest ih => rw [WalkContext.properties, WalkContext.properties, ih]

theorem outcome_tryRule_trace (trace trace' : Bool) (rule : Rule) :
    (tryRule ⟨r, trace⟩ env rule).outcome = (tryRule ⟨r, trace'⟩ env rule).outcome := by
  induction rule using Rule.ind generalizing env with
  | endpoint head body =>
    have henter (inner : Environment) : endpoint ⟨r, trace⟩ inner head.path body =
        endpoint ⟨r, trace'⟩ inner head.path body := by
      simp only [endpoint, headers_trace trace trace', properties_trace trace trace']
    rw [outcome_tryRule, outcome_tryRule]
    simp only [enter, henter]
  | error head message =>
    rw [outcome_tryRule, outcome_tryRule]
    rfl
  | tree head rules ih =>
    have hrules (inner : Environment) : (tryRules ⟨r, trace⟩ inner rules).outcome =
        (tryRules ⟨r, trace'⟩ inner rules).outcome := by
      induction rules with
      | nil => rfl
      | cons rule rest ihRest =>
        obtain ⟨hrule, hrest⟩ := List.forall_mem_cons.mp ih
        rw [outcome_tryRules_cons, outcome_tryRules_cons, hrule, ihRest hrest]
    rw [outcome_tryRule, outcome_tryRule]
    simp only [enter, hrules]

end WalkContext

/-! The lines about one rule. -/

namespace WalkContext
variable {ctx : WalkContext} {env inner : Environment} {rule : Rule}

private theorem notes_visit_of_trace (ht : ctx.trace = true) (event : Event) :
    (ctx.visit event).notes = [event] := by
  rw [visit, ht]
  rfl

private theorem notes_visit_of_no_trace (ht : ctx.trace = false) (event : Event) :
    (ctx.visit event).notes = [] := by
  rw [visit, ht]
  rfl

/-- Conditions are reported where one of them fails, and only there. -/
private theorem notes_holds? (hs : ctx.registry.Silent) (ht : ctx.trace = true) (path : Text)
    (index : Nat) (conditions : List Condition) :
    (env.test ctx.registry conditions = .ok none →
      ∃ n, (ctx.holds? path env index conditions).notes = [.failed path n]) ∧
    (env.test ctx.registry conditions ≠ .ok none →
      (ctx.holds? path env index conditions).notes = []) := by
  induction conditions generalizing env index with
  | nil => exact ⟨by rintro ⟨⟩, fun _ => rfl⟩
  | cons c rest ih =>
    rw [holds?]
    cases hc : (c.expr.eval ctx.registry env).outcome with
    | error e =>
      rw [Environment.test_cons_of_error hc, Noted.notes_bind_error _ _ hc, hs.notes_eval]
      exact ⟨by rintro ⟨⟩, fun _ => rfl⟩
    | ok v =>
      rw [Noted.notes_bind_ok _ _ hc, hs.notes_eval, List.nil_append]
      cases hv : Value.isTruthy v with
      | true =>
        rw [Environment.test_cons_of_true hc hv, if_pos rfl]
        exact ih (index + 1)
      | false =>
        rw [Environment.test_cons_of_false hc hv, if_neg Bool.false_ne_true,
          Noted.notes_bind_ok _ _ rfl, notes_visit_of_trace ht]
        exact ⟨fun _ => ⟨index, rfl⟩, fun h => absurd rfl h⟩

theorem notes_of_error (hs : ctx.registry.Silent) (ht : ctx.trace = true) {e : EvalError}
    (h : env.test ctx.registry rule.conditions = .error e) : (ctx.tryRule env rule).notes = [] := by
  have hne : env.test ctx.registry rule.conditions ≠ .ok none := by
    rw [h]
    rintro ⟨⟩
  rw [tryRule_eq, Noted.notes_bind_error (h := (outcome_holds? 0 _).trans h)]
  exact (notes_holds? hs ht rule.path 0 rule.conditions).2 hne

theorem notes_of_fails (hs : ctx.registry.Silent) (ht : ctx.trace = true)
    (h : env.test ctx.registry rule.conditions = .ok none) :
    ∃ n, (ctx.tryRule env rule).notes = [.failed rule.path n] := by
  obtain ⟨n, hn⟩ := (notes_holds? hs ht rule.path 0 rule.conditions).1 h
  refine ⟨n, ?_⟩
  rw [tryRule_eq, Noted.notes_bind_ok _ _ ((outcome_holds? 0 _).trans h), hn]
  rfl

/-- A rule whose conditions hold is reported as matched, in front of what is done for it. -/
theorem notes_of_holds (hs : ctx.registry.Silent) (ht : ctx.trace = true)
    (h : env.test ctx.registry rule.conditions = .ok (some inner)) :
    (ctx.tryRule env rule).notes =
      .matched rule.kind rule.path :: (ctx.finish inner rule).notes := by
  have hne : env.test ctx.registry rule.conditions ≠ .ok none := by
    rw [h]
    rintro ⟨⟩
  rw [tryRule_eq, Noted.notes_bind_ok _ _ ((outcome_holds? 0 _).trans h),
    (notes_holds? hs ht rule.path 0 rule.conditions).2 hne, List.nil_append]
  dsimp only
  rw [Noted.notes_bind_ok _ _ rfl, notes_visit_of_trace ht, List.singleton_append]

/-- A tree is reported as exhausted when none of its rules gives anything. -/
theorem notes_finish_of_none (ht : ctx.trace = true) {head : RuleHead} {rules : List Rule}
    (h : (ctx.tryRules inner rules).outcome = .ok none) :
    (ctx.finish inner (.tree head rules)).notes =
      (ctx.tryRules inner rules).notes ++ [.exhausted head.path] := by
  rw [finish, Noted.notes_bind_ok _ _ h]
  dsimp only
  rw [Noted.notes_bind_ok _ _ rfl, notes_visit_of_trace ht]
  rfl

theorem notes_finish_of_ne_none {head : RuleHead} {rules : List Rule}
    (h : (ctx.tryRules inner rules).outcome ≠ .ok none) :
    (ctx.finish inner (.tree head rules)).notes = (ctx.tryRules inner rules).notes := by
  rw [finish]
  cases hrules : (ctx.tryRules inner rules).outcome with
  | error e => rw [Noted.notes_bind_error _ _ hrules]
  | ok found =>
    rw [Noted.notes_bind_ok _ _ hrules]
    cases found with
    | none => exact absurd hrules h
    | some result => exact List.append_nil _

theorem notes_tryRules_of_none (rest : List Rule)
    (h : (ctx.tryRule env.push rule).outcome = .ok none) :
    (ctx.tryRules env (rule :: rest)).notes =
      (ctx.tryRule env.push rule).notes ++ (ctx.tryRules env rest).notes := by
  rw [tryRules, Noted.notes_bind_ok _ _ h]

theorem notes_tryRules_of_ne_none (rest : List Rule)
    (h : (ctx.tryRule env.push rule).outcome ≠ .ok none) :
    (ctx.tryRules env (rule :: rest)).notes = (ctx.tryRule env.push rule).notes := by
  rw [tryRules]
  cases hrule : (ctx.tryRule env.push rule).outcome with
  | error e => rw [Noted.notes_bind_error _ _ hrule]
  | ok found =>
    rw [Noted.notes_bind_ok _ _ hrule]
    cases found with
    | none => exact absurd hrule h
    | some result => exact List.append_nil _

theorem notes_tryRules_append {before : List Rule} (rules : List Rule)
    (h : (ctx.tryRules env before).outcome = .ok none) :
    (ctx.tryRules env (before ++ rules)).notes =
      (ctx.tryRules env before).notes ++ (ctx.tryRules env rules).notes := by
  induction before with
  | nil => rfl
  | cons rule rest ih =>
    have hrule := tryRules_none_iff.mp h rule List.mem_cons_self
    have hrest : (ctx.tryRules env rest).outcome = .ok none := by
      rw [tryRules_none_iff] at h ⊢
      exact (List.forall_mem_cons.mp h).2
    rw [List.cons_append, notes_tryRules_of_none _ hrule, notes_tryRules_of_none _ hrule, ih hrest,
      List.append_assoc]

theorem mem_notes_finish (ht : ctx.trace = true) {head : RuleHead} {rules : List Rule} {e : Event}
    (h : e ∈ (ctx.finish inner (.tree head rules)).notes) :
    e = .exhausted head.path ∨ e ∈ (ctx.tryRules inner rules).notes := by
  by_cases hnone : (ctx.tryRules inner rules).outcome = .ok none
  · rw [notes_finish_of_none ht hnone] at h
    obtain h | h := List.mem_append.mp h
    · exact .inr h
    · exact .inl (List.mem_singleton.mp h)
  · rw [notes_finish_of_ne_none hnone] at h
    exact .inr h

/-- A line about rules that are tried comes from one of them, behind others that give nothing. -/
theorem mem_notes_tryRules {rules : List Rule} {e : Event}
    (h : e ∈ (ctx.tryRules env rules).notes) :
    ∃ before rule after, rules = before ++ rule :: after ∧
      (ctx.tryRules env before).outcome = .ok none ∧ e ∈ (ctx.tryRule env.push rule).notes := by
  induction rules with
  | nil => cases h
  | cons rule rest ih =>
    by_cases hnone : (ctx.tryRule env.push rule).outcome = .ok none
    · rw [notes_tryRules_of_none rest hnone] at h
      obtain h | h := List.mem_append.mp h
      · exact ⟨[], rule, rest, rfl, rfl, h⟩
      · obtain ⟨before, found, after, rfl, hbefore, hmem⟩ := ih h
        refine ⟨rule :: before, found, after, rfl, ?_, hmem⟩
        rw [tryRules_none_iff] at hbefore ⊢
        exact List.forall_mem_cons.mpr ⟨hnone, hbefore⟩
    · rw [notes_tryRules_of_ne_none rest hnone] at h
      exact ⟨[], rule, rest, rfl, rfl, h⟩

/-! Whole walks. -/

/-- A walk notes what is done for a root that is matched. -/
private theorem notes_walk (frame : Frame) (rules : List Rule) :
    (ctx.walk frame rules).notes = (ctx.finish (.ofFrame frame) (Rule.root rules)).notes := by
  rw [walk, Rule.root, finish]
  obtain ⟨notes, outcome⟩ := ctx.tryRules (.ofFrame frame) rules
  cases outcome with
  | error e => rfl
  | ok found =>
    cases found with
    | some result => rfl
    | none =>
      obtain ⟨registry, trace⟩ := ctx
      cases trace <;> rfl

/-! Walks that are not traced. -/

private theorem notes_holds?_of_no_trace (hs : ctx.registry.Silent) (ht : ctx.trace = false)
    (path : Text) (index : Nat) (conditions : List Condition) :
    (ctx.holds? path env index conditions).notes = [] := by
  induction conditions generalizing env index with
  | nil => rfl
  | cons c rest ih =>
    refine Noted.notes_bind_nil (hs.notes_eval c.expr) fun v => ?_
    split
    · exact ih (index + 1)
    · exact Noted.notes_bind_nil (notes_visit_of_no_trace ht _) fun _ => rfl

private theorem notes_tryRule_of_finish (hs : ctx.registry.Silent) (ht : ctx.trace = false)
    (h : ∀ inner, (ctx.finish inner rule).notes = []) : (ctx.tryRule env rule).notes = [] := by
  rw [tryRule_eq]
  refine Noted.notes_bind_nil (notes_holds?_of_no_trace hs ht _ _ _) fun found => ?_
  cases found with
  | none => rfl
  | some inner => exact Noted.notes_bind_nil (notes_visit_of_no_trace ht _) fun _ => h inner

/-- Without tracing nothing is noted about a rule. -/
theorem notes_finish_of_no_trace (hs : ctx.registry.Silent) (ht : ctx.trace = false)
    (inner : Environment) (rule : Rule) : (ctx.finish inner rule).notes = [] := by
  induction rule using Rule.ind generalizing inner with
  | endpoint head body => exact hs.notes_finish nofun
  | error head message => exact hs.notes_finish nofun
  | tree head rules ih =>
    have hrules : (ctx.tryRules inner rules).notes = [] := by
      induction rules with
      | nil => rfl
      | cons rule rest ihRest =>
        obtain ⟨hrule, hrest⟩ := List.forall_mem_cons.mp ih
        refine Noted.notes_bind_nil (notes_tryRule_of_finish hs ht hrule) fun found => ?_
        cases found with
        | none => exact ihRest hrest
        | some result => rfl
    refine Noted.notes_bind_nil hrules fun found => ?_
    cases found with
    | none => exact Noted.notes_bind_nil (notes_visit_of_no_trace ht _) fun _ => rfl
    | some result => rfl

end WalkContext

theorem Resolver.notes_resolveBound (res : Resolver) (frame : Frame) :
    (res.resolveBound frame).notes =
      (res.context.finish (.ofFrame frame) res.ruleSet.root).notes :=
  WalkContext.notes_walk frame res.ruleSet.rules

end EndpointRules
