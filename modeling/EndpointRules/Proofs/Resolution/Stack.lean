import EndpointRules.Proofs.Document.Paths
import EndpointRules.Proofs.Resolution.Steps
import EndpointRules.Proofs.Scope.Lexical
import EndpointRules.Resolution.Stack

/-! One stack serves a whole walk. The walk that shares it ends as the walk that hands environments
down and leaves the stack as it was. Each of its evaluations finds a stack that the conditions on
the way to it have built up. -/

namespace EndpointRules

/-- The conditions on the way to a rule, and those of the rule that have held so far, build up the
stack: a frame is entered for each rule, and each condition was evaluated in the stack before it. -/
inductive Environment.Arises (r : Registry) (root : Rule) (frame : Frame)
    (past : List Evaluation) : List Nat → List Condition → Environment → Prop
  | start : Arises r root frame past [] [] (.ofFrame frame)
  | enter {position : List Nat} {head : RuleHead} {rules : List Rule} {env : Environment}
      (index : Nat) : root.at? position = some (.tree head rules) →
      Arises r root frame past position head.conditions env →
      Arises r root frame past (position ++ [index]) [] env.push
  | pass {position : List Nat} {held : List Condition} {env : Environment} {rule : Rule}
      {c : Condition} {rest : List Condition} {v : Option Value} :
      root.at? position = some rule → rule.conditions = held ++ c :: rest →
      Arises r root frame past position held env → ⟨position, held, env, c.expr⟩ ∈ past →
      (c.expr.eval r env).outcome = .ok v → Value.isTruthy v = true →
      Arises r root frame past position (held ++ [c]) (env.pass c v)

/-- The walk stands at a rule of which some conditions have held. -/
structure StackState.Stands (r : Registry) (root : Rule) (frame : Frame) (st : StackState)
    (position : List Nat) (held : List Condition) (rule : Rule) : Prop where
  at?_eq : root.at? position = some rule
  arises : st.env.Arises r root frame st.past position held

/-- An evaluation begins where its rule has the expression, and in the stack built up on the way. -/
structure Evaluation.Due (r : Registry) (root : Rule) (frame : Frame) (earlier : List Evaluation)
    (m : Evaluation) : Prop where
  has : ∃ rule, root.at? m.position = some rule ∧ rule.Has m.held m.expr
  arises : m.env.Arises r root frame earlier m.position m.held

/-- Every evaluation was due after those before it. -/
def History (r : Registry) (root : Rule) (frame : Frame) (past : List Evaluation) : Prop :=
  ∀ earlier m later, past = earlier ++ m :: later → m.Due r root frame earlier

/-- A step ends so from a stack. It forgets no evaluation and begins only those that are due. -/
structure OnStack.Ends (r : Registry) (root : Rule) (frame : Frame) {α : Type} (x : OnStack α)
    (st : StackState) (outcome : Except EvalError α) (after : StackState) : Prop where
  run_eq : x st = (outcome.mapError .eval, after)
  past_subset : st.past ⊆ after.past
  history : History r root frame st.past → History r root frame after.past

/-- A step ends so and leaves the stack as it was. -/
def OnStack.Keeps (r : Registry) (root : Rule) (frame : Frame) {α : Type} (x : OnStack α)
    (st : StackState) (outcome : Except EvalError α) : Prop :=
  ∃ past, x.Ends r root frame st outcome { st with past := past }

/-- A step ends so and changes nothing but the innermost frame. -/
def OnStack.Confines (r : Registry) (root : Rule) (frame : Frame) {α : Type} (x : OnStack α)
    (st : StackState) (outcome : Except EvalError α) : Prop :=
  ∃ after, x.Ends r root frame st outcome after ∧ after.env.pop? = st.env.pop?

variable {r : Registry} {root : Rule} {frame : Frame}

private theorem Environment.Arises.mono {past more : List Evaluation} {position : List Nat}
    {held : List Condition} {env : Environment} (h : env.Arises r root frame past position held)
    (hsub : past ⊆ more) : env.Arises r root frame more position held := by
  induction h with
  | start => exact .start
  | enter index hparent _ ih => exact .enter index hparent ih
  | pass hrule hsplit _ hmem hv htrue ih => exact .pass hrule hsplit ih (hsub hmem) hv htrue

private theorem StackState.Stands.mono {st : StackState} {position : List Nat}
    {held : List Condition}
    {rule : Rule} (h : st.Stands r root frame position held rule) {past : List Evaluation}
    (hsub : st.past ⊆ past) :
    StackState.Stands r root frame { st with past := past } position held rule :=
  ⟨h.at?_eq, h.arises.mono hsub⟩

/-- The last item of a list is the one at which the list is cut, or it stands behind that one. -/
theorem cases_of_concat {α : Type} {xs before rest : List α} {x y : α}
    (h : xs ++ [x] = before ++ y :: rest) :
    (rest = [] ∧ before = xs ∧ y = x) ∨ ∃ later, xs = before ++ y :: later := by
  rcases List.eq_nil_or_concat rest with rfl | ⟨later, last, rfl⟩
  · obtain ⟨hbefore, hlast⟩ := List.append_inj' h rfl
    exact .inl ⟨rfl, hbefore.symm, (List.singleton_inj.mp hlast).symm⟩
  · rw [List.concat_eq_append, ← List.cons_append, ← List.append_assoc] at h
    exact .inr ⟨later, (List.append_inj' h rfl).1⟩

private theorem History.concat {past : List Evaluation} {m : Evaluation}
    (h : History r root frame past) (hm : m.Due r root frame past) :
    History r root frame (past ++ [m]) := by
  intro earlier m' later hsplit
  rcases cases_of_concat hsplit with ⟨-, rfl, rfl⟩ | ⟨later, hpast⟩
  · exact hm
  · exact h earlier m' later hpast

/-- A condition binds in the innermost frame only. -/
private theorem Environment.pop?_pass (env : Environment) (c : Condition) (v : Option Value) :
    (env.pass c v).pop? = env.pop? := by
  obtain ⟨inner, parameters⟩ := env
  unfold pass bind
  cases c.assign <;> cases inner <;> rfl

/-! Sequences of steps. -/

namespace OnStack
variable {α β : Type} {x : OnStack α} {f : α → OnStack β} {st mid after : StackState}

private theorem ends_ofExcept (outcome : Except EvalError α) :
    (ofExcept outcome).Ends r root frame st outcome st :=
  ⟨rfl, List.Subset.refl _, id⟩

private theorem ends_pure (a : α) : (pure a : OnStack α).Ends r root frame st (.ok a) st :=
  ends_ofExcept (.ok a)

private theorem Ends.bind_ok {a : α} {outcome : Except EvalError β}
    (hx : x.Ends r root frame st (.ok a) mid) (hf : (f a).Ends r root frame mid outcome after) :
    (x >>= f).Ends r root frame st outcome after := by
  refine ⟨?_, List.Subset.trans hx.past_subset hf.past_subset, fun h => hf.history (hx.history h)⟩
  show andThen x f st = _
  rw [andThen, hx.run_eq]
  exact hf.run_eq

private theorem Ends.bind_error {e : EvalError} (hx : x.Ends r root frame st (.error e) after) :
    (x >>= f).Ends r root frame st (.error e) after := by
  refine ⟨?_, hx.past_subset, hx.history⟩
  show andThen x f st = _
  rw [andThen, hx.run_eq]
  rfl

private theorem keeps_ofExcept (outcome : Except EvalError α) :
    (ofExcept outcome).Keeps r root frame st outcome :=
  ⟨st.past, ends_ofExcept outcome⟩

private theorem keeps_pure (a : α) : (pure a : OnStack α).Keeps r root frame st (.ok a) :=
  keeps_ofExcept (.ok a)

private theorem ends_assign (c : Condition) (v : Option Value) :
    (assign c v).Ends r root frame st (.ok ())
    { st with env := st.env.pass c v } := by
  refine ⟨?_, List.Subset.refl _, id⟩
  unfold assign Environment.pass
  cases c.assign <;> rfl

/-- What follows a step that keeps the stack finds it with more of a past. -/
private theorem Keeps.bind {outcome : Except EvalError α} {next : α → Except EvalError β}
    (hx : x.Keeps r root frame st outcome)
    (hf : ∀ a past, st.past ⊆ past → (f a).Keeps r root frame { st with past := past } (next a)) :
    (x >>= f).Keeps r root frame st (outcome.bind next) := by
  obtain ⟨past, hx⟩ := hx
  cases outcome with
  | error e => exact ⟨past, hx.bind_error⟩
  | ok a =>
    obtain ⟨more, hf⟩ := hf a past hx.past_subset
    exact ⟨more, hx.bind_ok hf⟩

/-- In a frame of its own, a step that changes nothing but the innermost frame keeps the stack. -/
private theorem Confines.framed {outcome : Except EvalError α}
    (h : x.Confines r root frame { st with env := st.env.push } outcome) :
    x.framed.Keeps r root frame st outcome := by
  obtain ⟨after, hx, hpop⟩ := h
  refine ⟨after.past, ?_, hx.past_subset, hx.history⟩
  have hlast : pop after = (.ok (), { st with past := after.past }) := by
    rw [pop, hpop, Environment.pop?_push]
  show x.andFinally pop { st with env := st.env.push } = _
  rw [andFinally, hx.run_eq]
  simp only [hlast]

end OnStack

/-! The walk. -/

namespace WalkContext
open OnStack
variable {ctx : WalkContext} {st : StackState} {position : List Nat} {held : List Condition}
  {rule : Rule}

private theorem evalOn_ends {e : Expr} (hs : st.Stands ctx.registry root frame position held rule)
    (he : rule.Has held e) : (ctx.evalOn position held e).Ends ctx.registry root frame st
      (e.eval ctx.registry st.env).outcome
      { st with past := st.past ++ [⟨position, held, st.env, e⟩] } := by
  refine ⟨rfl, List.subset_append_left _ _, fun h => h.concat ?_⟩
  exact ⟨⟨rule, hs.at?_eq, he⟩, hs.arises⟩

private theorem evalOn_keeps {e : Expr} (hs : st.Stands ctx.registry root frame position held rule)
    (he : rule.Has held e) : (ctx.evalOn position held e).Keeps ctx.registry root frame st
      (e.eval ctx.registry st.env).outcome :=
  ⟨_, evalOn_ends hs he⟩

private theorem evalTextOn_keeps {context : Text} {e : Expr}
    (hs : st.Stands ctx.registry root frame position held rule) (he : rule.Has held e) :
    (ctx.evalTextOn position held context e).Keeps ctx.registry root frame st
      (e.evalText ctx.registry st.env context).outcome := by
  rw [Expr.evalText, Noted.outcome_bind]
  refine (evalOn_keeps hs he).bind fun v past _ => ?_
  split
  · exact keeps_pure _
  · next hother =>
    cases v with
    | none => exact keeps_ofExcept _
    | some v =>
      cases v with
      | string s => exact absurd rfl (hother s)
      | _ => exact keeps_ofExcept _

private theorem headerValuesOn_keeps {context : Text} {values : List Expr}
    (hs : st.Stands ctx.registry root frame position held rule)
    (hvalues : ∀ e ∈ values, rule.Has held e) :
    (ctx.headerValuesOn position held context values).Keeps ctx.registry root frame st
      (ctx.headerValues st.env context values).outcome := by
  induction values generalizing st with
  | nil => exact keeps_pure []
  | cons e rest ih =>
    obtain ⟨he, hrest⟩ := List.forall_mem_cons.mp hvalues
    rw [headerValues, Noted.outcome_bind]
    refine (evalTextOn_keeps hs he).bind fun s past hsub => ?_
    rw [Noted.outcome_bind]
    exact (ih (hs.mono hsub) hrest).bind fun others _ _ => keeps_pure _

private theorem headersOn_keeps {path : Text} {headers : List (Text × List Expr)}
    (hs : st.Stands ctx.registry root frame position held rule)
    (hheaders : ∀ header ∈ headers, ∀ e ∈ header.2, rule.Has held e) :
    (ctx.headersOn position held path headers).Keeps ctx.registry root frame st
      (ctx.headers st.env path headers).outcome := by
  induction headers generalizing st with
  | nil => exact keeps_pure []
  | cons header rest ih =>
    obtain ⟨hvalues, hrest⟩ := List.forall_mem_cons.mp hheaders
    rw [WalkContext.headers, Noted.outcome_bind]
    refine (headerValuesOn_keeps hs hvalues).bind fun texts past hsub => ?_
    rw [Noted.outcome_bind]
    exact (ih (hs.mono hsub) hrest).bind fun others _ _ => keeps_pure _

private theorem propertiesOn_keeps {path : Text} {properties : List (Text × Expr)}
    (hs : st.Stands ctx.registry root frame position held rule)
    (hproperties : ∀ property ∈ properties, rule.Has held property.2) :
    (ctx.propertiesOn position held path properties).Keeps ctx.registry root frame st
      (ctx.properties st.env path properties).outcome := by
  induction properties generalizing st with
  | nil => exact keeps_pure []
  | cons property rest ih =>
    obtain ⟨he, hrest⟩ := List.forall_mem_cons.mp hproperties
    rw [WalkContext.properties, Noted.outcome_bind]
    refine (evalOn_keeps hs he).bind fun v past hsub => ?_
    cases v with
    | none => exact keeps_ofExcept _
    | some v =>
      dsimp only
      rw [Noted.outcome_bind]
      exact (ih (hs.mono hsub) hrest).bind fun others _ _ => keeps_pure _

private theorem endpointOn_keeps {head : RuleHead} {body : EndpointBody}
    (hs : st.Stands ctx.registry root frame position head.conditions (.endpoint head body)) :
    (ctx.endpointOn position head.conditions head.path body).Keeps ctx.registry root frame st
      (ctx.endpoint st.env head.path body).outcome := by
  have hhas {e : Expr} (he : e ∈ body.exprs) :
      (Rule.endpoint head body).Has head.conditions e := .terminal he
  simp only [EndpointBody.mem_exprs] at hhas
  rw [endpoint, Noted.outcome_bind]
  refine (evalTextOn_keeps hs (hhas (.inl rfl))).bind fun url past hurl => ?_
  rw [Noted.outcome_bind]
  refine (headersOn_keeps (hs.mono hurl) fun header hmem e he =>
    hhas (.inr (.inr ⟨header, hmem, he⟩))).bind fun headers past hheaders => ?_
  rw [Noted.outcome_bind]
  exact (propertiesOn_keeps (hs.mono (List.Subset.trans hurl hheaders)) fun property hmem =>
    hhas (.inr (.inl ⟨property, hmem, rfl⟩))).bind fun properties _ _ => keeps_pure _

/-- Conditions are tested as before, and those that hold lead to the stack behind them. -/
private theorem holdsOn_ends {conditions : List Condition}
    (hs : st.Stands ctx.registry root frame position held rule)
    (hsplit : rule.conditions = held ++ conditions) :
    ∃ after, (ctx.holdsOn position held conditions).Ends ctx.registry root frame st
        ((st.env.test ctx.registry conditions).map Option.isSome) after ∧
      after.env.pop? = st.env.pop? ∧
      ∀ inner, st.env.test ctx.registry conditions = .ok (some inner) →
        after.env = inner ∧ after.Stands ctx.registry root frame position rule.conditions rule := by
  induction conditions generalizing st held with
  | nil =>
    refine ⟨st, ends_pure true, rfl, fun inner h => ?_⟩
    cases h
    rw [List.append_nil] at hsplit
    exact ⟨rfl, hsplit ▸ hs⟩
  | cons c rest ih =>
    have heval := evalOn_ends hs (.condition hsplit)
    rw [holdsOn]
    cases hc : (c.expr.eval ctx.registry st.env).outcome with
    | error e =>
      rw [hc] at heval
      rw [Environment.test_cons_of_error hc]
      exact ⟨_, heval.bind_error, rfl, fun inner h => by cases h⟩
    | ok v =>
      rw [hc] at heval
      cases hv : Value.isTruthy v with
      | false =>
        rw [Environment.test_cons_of_false hc hv]
        refine ⟨{ st with past := st.past ++ [⟨position, held, st.env, c.expr⟩] },
          heval.bind_ok ?_, rfl, fun inner h => by cases h⟩
        rw [hv]
        exact ends_pure false
      | true =>
        rw [Environment.test_cons_of_true hc hv]
        let behind : StackState :=
          ⟨st.past ++ [⟨position, held, st.env, c.expr⟩], st.env.pass c v⟩
        have hbehind : behind.Stands ctx.registry root frame position (held ++ [c]) rule := by
          refine ⟨hs.at?_eq, .pass hs.at?_eq hsplit (hs.arises.mono ?_) ?_ hc hv⟩
          · exact List.subset_append_left _ _
          · exact List.mem_append_right _ (List.mem_singleton_self _)
        obtain ⟨after, hrest, hpop, hheld⟩ := ih hbehind (by rw [hsplit, List.append_cons])
        refine ⟨after, heval.bind_ok ?_, hpop.trans (st.env.pop?_pass c v), hheld⟩
        rw [hv, if_pos rfl]
        exact (ends_assign c v).bind_ok hrest

/-- A rule gives what stands behind its conditions, if these hold. -/
private theorem guarded_confines {next : OnStack (Option Resolution)}
    {outcome : Environment → Except EvalError (Option Resolution)}
    (hs : st.Stands ctx.registry root frame position [] rule)
    (hnext : ∀ after : StackState,
      after.Stands ctx.registry root frame position rule.conditions rule →
      next.Keeps ctx.registry root frame after (outcome after.env)) :
    (do if ← ctx.holdsOn position [] rule.conditions then next else return none).Confines
      ctx.registry root frame st (st.env.behind ctx.registry rule.conditions outcome) := by
  obtain ⟨after, hends, hpop, hheld⟩ :=
    holdsOn_ends hs (List.nil_append rule.conditions).symm
  cases htest : st.env.test ctx.registry rule.conditions with
  | error e =>
    rw [htest] at hends
    rw [Environment.behind_of_error htest]
    exact ⟨after, hends.bind_error, hpop⟩
  | ok found =>
    rw [htest] at hends
    cases found with
    | none =>
      rw [Environment.behind_of_fails htest]
      exact ⟨after, hends.bind_ok (ends_pure none), hpop⟩
    | some inner =>
      rw [Environment.behind_of_holds htest]
      obtain ⟨rfl, hstands⟩ := hheld inner htest
      obtain ⟨past, hlast⟩ := hnext after hstands
      exact ⟨_, hends.bind_ok hlast, hpop⟩

/-- Rules that stand right below a rule whose conditions have held keep the stack, if each of them
does in a frame of its own. -/
private theorem tryRulesOn_keeps_of {head : RuleHead} (before : List Rule) {rules : List Rule}
    (hs : st.Stands ctx.registry root frame position head.conditions
      (.tree head (before ++ rules)))
    (hrules : ∀ rule ∈ rules, ∀ (position : List Nat) (st : StackState),
      st.Stands ctx.registry root frame position [] rule →
      (ctx.tryRuleOn position rule).Confines ctx.registry root frame st
        (ctx.tryRule st.env rule).outcome) :
    (ctx.tryRulesOn position before.length rules).Keeps ctx.registry root frame st
      (ctx.tryRules st.env rules).outcome := by
  induction rules generalizing before st with
  | nil => exact keeps_pure none
  | cons rule rest ih =>
    obtain ⟨hrule, hrest⟩ := List.forall_mem_cons.mp hrules
    have hentered : StackState.Stands ctx.registry root frame { st with env := st.env.push }
        (position ++ [before.length]) [] rule := by
      refine ⟨?_, .enter _ hs.at?_eq hs.arises⟩
      rw [Rule.at?_append, hs.at?_eq]
      simp [Rule.at?]
    rw [outcome_tryRules_cons]
    refine (hrule _ _ hentered).framed.bind fun found past hsub => ?_
    cases found with
    | some result => exact keeps_pure _
    | none =>
      have hlater := hs.mono hsub
      rw [List.append_cons] at hlater
      have hlength : before.length + 1 = (before ++ [rule]).length := by
        rw [List.length_append, List.length_singleton]
      rw [hlength]
      exact ih _ hlater hrest

private theorem tryRuleOn_confines (hs : st.Stands ctx.registry root frame position [] rule) :
    (ctx.tryRuleOn position rule).Confines ctx.registry root frame st
      (ctx.tryRule st.env rule).outcome := by
  induction rule using Rule.ind generalizing position st with
  | endpoint head body =>
    rw [outcome_tryRule, tryRuleOn]
    refine guarded_confines hs fun after hafter => ?_
    rw [enter, Noted.outcome_bind]
    exact (endpointOn_keeps hafter).bind fun result _ _ => keeps_pure _
  | error head message =>
    rw [outcome_tryRule, tryRuleOn]
    refine guarded_confines hs fun after hafter => ?_
    rw [enter, Noted.outcome_bind]
    refine Keeps.bind ?_ fun result _ _ => keeps_pure _
    rw [rejection, Noted.outcome_bind]
    exact (evalTextOn_keeps hafter .message).bind fun text _ _ => keeps_pure _
  | tree head rules ih =>
    rw [outcome_tryRule, tryRuleOn]
    exact guarded_confines hs fun after hafter =>
      tryRulesOn_keeps_of [] hafter fun rule hrule _ _ => ih rule hrule

/-- The walk on one stack ends as the walk that hands environments down, and with the stack as it
was. -/
theorem tryRulesOn_keeps (head : RuleHead) {rules : List Rule}
    (hs : st.Stands ctx.registry root frame position head.conditions (.tree head rules)) :
    (ctx.tryRulesOn position 0 rules).Keeps ctx.registry root frame st
      (ctx.tryRules st.env rules).outcome :=
  tryRulesOn_keeps_of [] hs fun _ _ _ _ => tryRuleOn_confines

end WalkContext
end EndpointRules
