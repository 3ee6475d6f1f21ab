import EndpointRules.Proofs.Document.Loaded
import EndpointRules.Proofs.Resolution.Visits
import EndpointRules.Proofs.Typing.Values

/-! Soundness of the static checks. Expressions that fit a scope are evaluated without a failed
look-up where the names in scope have values of their types, and their values belong to their static
types. A walk keeps to such scopes, so a type error needs an argument of unknown type. -/

namespace EndpointRules
variable {r : Registry} {scope : TyEnv} {env : Environment}

/-- Every name in scope is bound, to a value of its type or to none. -/
def Environment.Models (env : Environment) (scope : TyEnv) : Prop :=
  ∀ name type, scope.find? name = some type → ∃ v, env.find? name = some v ∧ type.Admits v

private theorem Environment.Models.lookup_ok (hm : env.Models scope) {name : Text}
    (h : (scope.find? name).isSome) : ∃ v, env.lookup name = .ok v := by
  obtain ⟨type, htype⟩ := Option.isSome_iff_exists.mp h
  obtain ⟨v, hv, -⟩ := hm name type htype
  exact ⟨v, by rw [lookup, hv]⟩

/-- An error of the rendering of a value: about what the value is, or over its text. -/
def EvalError.IsOfRendering (err : EvalError) : Prop :=
  err.code? = some .template ∨ ∃ b, err = .breakdown b ∧ b.isOverData = true

private theorem decimalText_error {n : Int} {b : Breakdown} (h : decimalText n = .error b) :
    b = .longNumber := by
  unfold decimalText at h
  split at h
  · exact (Except.error.inj h).symm
  · cases h

private theorem Value.stringify_error {label : Text} {v : Option Value} {err : EvalError}
    (h : stringify label v = .error err) : err.IsOfRendering := by
  unfold stringify at h
  split at h
  case h_4 =>
    obtain ⟨b, hb, rfl⟩ := Outcome.mapError_error_iff.mp h
    obtain rfl := decimalText_error hb
    exact .inr ⟨_, rfl, rfl⟩
  all_goals cases h
  all_goals exact .inl rfl

namespace Template
variable {lookup : Text → Except EvalError (Option Value)} {err : EvalError}

private theorem target_error {v : Option Value} {path : Option Text}
    (h : target v path = .error err) :
    err.IsOfRendering := by
  cases path with
  | none => cases h
  | some path =>
    rcases Outcome.bind_error_iff.mp h with h | ⟨steps, -, h⟩
    · obtain ⟨b, hb, rfl⟩ := Outcome.mapError_error_iff.mp h
      obtain ⟨n, -, rfl, -⟩ := AttrPath.read_error hb
      exact .inr ⟨_, rfl, rfl⟩
    · cases h

private theorem Part.render_error {part : Part} (h : part.render lookup = .error err) :
    (∃ name, part.reference? = some name ∧ lookup name = .error err) ∨ err.IsOfRendering := by
  cases part with
  | text s => cases h
  | placeholder name path =>
    rcases Outcome.bind_error_iff.mp h with h | ⟨v, -, h⟩
    · exact .inl ⟨name, rfl, h⟩
    · rcases Outcome.bind_error_iff.mp h with h | ⟨shown, -, h⟩
      · exact .inr (target_error h)
      · exact .inr (Value.stringify_error h)

/-- A template ends in an error of a look-up, or in one about the text of a value. -/
private theorem renderParts_error {parts : List Part} (h : renderParts lookup parts = .error err) :
    (∃ name ∈ parts.filterMap Part.reference?, lookup name = .error err) ∨ err.IsOfRendering := by
  induction parts with
  | nil => cases h
  | cons part rest ih =>
    rcases Outcome.bind_error_iff.mp h with h | ⟨text, -, h⟩
    · exact (Part.render_error h).imp_left fun ⟨name, hname, he⟩ =>
        ⟨name, List.mem_filterMap.mpr ⟨part, List.mem_cons_self, hname⟩, he⟩
    · rcases Outcome.bind_error_iff.mp h with h | ⟨texts, -, h⟩
      · refine (ih h).imp_left fun ⟨name, hname, he⟩ => ⟨name, ?_, he⟩
        obtain ⟨other, hother, hname⟩ := List.mem_filterMap.mp hname
        exact List.mem_filterMap.mpr ⟨other, List.mem_cons_of_mem _ hother, hname⟩
      · cases h

end Template

namespace Expr

private theorem args_typed {args : List Expr} {vs : List (Option Value)}
    (h : (evalArgs r env args).outcome = .ok vs)
    (hvalue : ∀ e ∈ args, ∀ v, (e.eval r env).outcome = .ok v → (e.ty r scope).Admits v) :
    List.Forall₂ Ty.Admits (itemTypes r scope args) vs := by
  rw [itemTypes_eq_map, List.forall₂_map_left_iff]
  have hvs := evalArgs_ok_iff.mp h
  clear h
  induction hvs with
  | nil => exact .nil
  | cons hv _ ih =>
    obtain ⟨hfirst, hrest⟩ := List.forall_mem_cons.mp hvalue
    exact .cons (hfirst _ hv) (ih hrest)

private theorem evalArgs_of_evalItems {items : List Expr} {vs : List Value}
    (h : (evalItems r env items).outcome = .ok vs) :
    (evalArgs r env items).outcome = .ok (vs.map some) := by
  rw [evalArgs_ok_iff, List.forall₂_map_right_iff]
  exact evalItems_ok_iff.mp h

private theorem all_strings {types : List Ty} {vs : List Value}
    (h : List.Forall₂ Ty.Admits types (vs.map some)) (hs : types.all (· == .string) = true) :
    vs.all Ty.string.admits = true := by
  rw [List.forall₂_map_right_iff] at h
  induction h with
  | nil => rfl
  | cons hv _ ih =>
    obtain ⟨htype, hrest⟩ := Bool.and_eq_true_iff.mp (List.all_cons ▸ hs)
    rw [beq_iff_eq] at htype
    rw [htype, Ty.admits_some_iff] at hv
    rw [List.all_cons, hv, ih hrest]
    rfl

/-- The value of an expression that fits belongs to its static type. -/
theorem eval_admits (hr : r.Sound) (hm : env.Models scope) {e : Expr} {v : Option Value}
    (hf : e.Fits r scope) (h : (e.eval r env).outcome = .ok v) : (e.ty r scope).Admits v := by
  induction e using Expr.ind generalizing v with
  | bool b =>
    cases h
    simp [ty, Ty.admits]
  | int n =>
    cases h
    simp [ty, Ty.admits]
  | template t =>
    rw [eval, Noted.outcome_ofExcept, Outcome.map_ok_iff] at h
    obtain ⟨s, -, rfl⟩ := h
    simp [ty, Ty.admits]
  | list items ih =>
    obtain ⟨vs, hvs, h⟩ := Noted.bind_ok_iff.mp h
    cases h
    rw [Fits, itemsFit_iff] at hf
    have hvalues := args_typed (evalArgs_of_evalItems hvs) fun e he v hv => ih e he (hf e he) hv
    rw [ty]
    split
    · next hs =>
      rw [Ty.admits_some_iff, Ty.admits]
      exact all_strings hvalues (Bool.and_eq_true_iff.mp hs).2
    · rw [Ty.admits_some_iff, Ty.admits, List.all_eq_true]
      intro v _
      exact Ty.any_admits (some v) v rfl
  | record fields ih =>
    obtain ⟨vs, -, h⟩ := Noted.bind_ok_iff.mp h
    cases h
    simp [ty, Ty.admits]
  | ref name =>
    cases name with
    | text s =>
      obtain ⟨type, htype⟩ := Option.isSome_iff_exists.mp hf
      obtain ⟨bound, hbound, hadmits⟩ := hm s type htype
      rw [eval, Noted.outcome_ofExcept, Environment.lookupName, Environment.lookup, hbound] at h
      cases h
      rw [ty, htype]
      exact hadmits
    | other given => cases hf
  | call f args ih =>
    obtain ⟨hargs, type, hcheck⟩ := hf
    rw [itemsFit_iff] at hargs
    obtain ⟨vs, hvs, h⟩ := Noted.bind_ok_iff.mp h
    rw [outcome_apply] at h
    have hvalues := args_typed hvs fun e he v hv => ih e he (hargs e he) hv
    obtain ⟨g, hg, hreturns, -, hcall⟩ := Registry.call_of_checkCall hcheck
    rw [hcall vs hvalues.length_eq.symm] at h
    have htype : (call f args).ty r scope = g.returns := by
      rw [ty, hcheck, hreturns]
    rw [htype]
    obtain ⟨w, hw, hadmits⟩ | ⟨e, he, -⟩ | ⟨b, he, -⟩ | ⟨e, he, -, -⟩ := (hr g hg).ends vs
    · cases hw.symm.trans h
      exact hadmits
    · cases he.symm.trans h
    · cases he.symm.trans h
    · cases he.symm.trans h

/-- Values of known types that may stand in their places belong to the declared types. -/
private theorem accept_of_known {params types : List Ty} {vs : List (Option Value)}
    (hs : ∀ type ∈ params, type.isScalar = true)
    (ha : List.Forall₂ (fun e g => e.assignable g = true) params types)
    (hv : List.Forall₂ Ty.Admits types vs) (hknown : ∀ type ∈ types, type ≠ .any) :
    Function.Accept params vs := by
  induction ha generalizing vs with
  | nil =>
    cases hv
    exact .nil
  | cons hfirst _ ih =>
    obtain ⟨hscalar, hscalars⟩ := List.forall_mem_cons.mp hs
    obtain ⟨hne, hnes⟩ := List.forall_mem_cons.mp hknown
    cases hv with
    | cons hadmits hrest =>
      refine .cons ?_ (ih hscalars hrest hnes)
      intro w hw
      exact Ty.admits_of_assignable hscalar hfirst hne (hadmits w hw)

/-- What an expression that fits raises by itself is about values or templates, or a breakdown over
them, or about types; and then it is a call with an argument that may be anything. -/
theorem Raises.cases {e : Expr} {err : EvalError} (h : e.Raises r env err) (hr : r.Sound)
    (hm : env.Models scope) (hf : e.Fits r scope) :
    err.code? = some .evaluation ∨ err.IsOfRendering ∨
      err.code? = some .type ∧
        ∃ f args, e = .call f args ∧ ∃ arg ∈ args, arg.ty r scope = .any := by
  cases h with
  | @template t _ h =>
    unfold evalTemplate at h
    split at h
    · cases h
    · obtain ⟨name, hname, he⟩ | hcode := Template.renderParts_error h
      · obtain ⟨v, hv⟩ := hm.lookup_ok (hf name hname)
        cases hv.symm.trans he
      · exact .inr (.inl hcode)
  | absent _ _ => exact .inl rfl
  | @lookup name _ h =>
    cases name with
    | text s =>
      obtain ⟨v, hv⟩ := hm.lookup_ok hf
      cases hv.symm.trans h
    | other given => cases hf
  | @call f args vs _ hvs h =>
    obtain ⟨hargs, type, hcheck⟩ := hf
    rw [itemsFit_iff] at hargs
    have hvalues := args_typed hvs fun e he v hv => eval_admits hr hm (hargs e he) hv
    obtain ⟨g, hg, -, hassignable, hcall⟩ := Registry.call_of_checkCall hcheck
    rw [hcall vs hvalues.length_eq.symm] at h
    obtain ⟨w, hw, -⟩ | ⟨e, he, hcode⟩ | ⟨b, he, hover⟩ | ⟨e, he, hcode, hnot⟩ := (hr g hg).ends vs
    · cases hw.symm.trans h
    · cases he.symm.trans h
      exact .inl hcode
    · cases he.symm.trans h
      exact .inr (.inl (.inr ⟨b, rfl, hover⟩))
    · cases he.symm.trans h
      refine .inr (.inr ⟨hcode, f, args, rfl, ?_⟩)
      by_contra hnone
      -- Without an argument of unknown type, the values would be those that the function declares.
      refine hnot (accept_of_known (hr g hg).scalar hassignable hvalues ?_)
      intro type htype hany
      rw [itemTypes_eq_map] at htype
      obtain ⟨arg, harg, rfl⟩ := List.mem_map.mp htype
      exact hnone ⟨arg, harg, hany⟩

/-- Evaluation stays within expressions that fit. -/
theorem Reaches.fits {e sub : Expr} (h : e.Reaches r env sub) (hf : e.Fits r scope) :
    sub.Fits r scope := by
  induction h with
  | here e => exact hf
  | item _ _ ih => exact ih ((itemsFit_iff _).mp hf _ (by simp))
  | @field before name e after vs sub _ _ ih =>
    exact ih ((fieldsFit_iff _).mp hf (name, e) (by simp))
  | argument _ _ ih => exact ih ((itemsFit_iff _).mp hf.1 _ (by simp))

end Expr

/-! The walk. -/

namespace Environment.Models

theorem push (hm : env.Models scope) : env.push.Models scope := hm

/-- Behind a condition the environment fits the scope behind the condition. -/
private theorem pass (hm : env.Models scope) {c : Condition} {v : Option Value}
    (hc : c.Fits r scope)
    (hv : (c.expr.ty r scope).Admits v) : (env.pass c v).Models (scope.pass r c) := by
  intro name type h
  cases hassign : c.assign with
  | none =>
    rw [TyEnv.pass, hassign] at h
    rw [Environment.pass, hassign]
    exact hm name type h
  | some assigned =>
    have hscope : scope.pass r c = scope.extend assigned (c.expr.ty r scope) := by
      simp [TyEnv.pass, hassign, hc.2 assigned hassign]
    rw [hscope, TyEnv.find?_extend] at h
    rw [Environment.pass, hassign]
    dsimp only
    rw [find?_bind]
    split at h
    · next hname =>
      cases h
      exact ⟨v, if_pos hname, hv⟩
    · next hname =>
      rw [if_neg hname]
      exact hm name type h

/-- Conditions that hold lead from a scope to the scope behind them. -/
private theorem test (hr : r.Sound) (hm : env.Models scope) {conditions more : List Condition}
    {inner : Environment} (hf : ConditionsFit r scope (conditions ++ more))
    (h : env.test r conditions = .ok (some inner)) :
    inner.Models (scope.after r conditions) ∧ ConditionsFit r (scope.after r conditions) more := by
  induction conditions generalizing env scope with
  | nil =>
    cases h
    exact ⟨hm, hf⟩
  | cons c rest ih =>
    obtain ⟨v, hv, hrest⟩ := Environment.test_cons_some h
    exact ih (hm.pass hf.1 (Expr.eval_admits hr hm hf.1.1 hv)) hf.2 hrest

private theorem test_all (hr : r.Sound) (hm : env.Models scope) {conditions : List Condition}
    {inner : Environment} (hf : ConditionsFit r scope conditions)
    (h : env.test r conditions = .ok (some inner)) : inner.Models (scope.after r conditions) := by
  rw [← List.append_nil conditions] at hf
  exact (hm.test hr hf h).1

end Environment.Models

/-- The scope of an expression at a moment: the outer scope and what the trail adds to it. -/
def Moment.tyEnv (r : Registry) (outer : TyEnv) (m : Moment) : TyEnv :=
  outer.after r m.trail.flatten

/-- A walk through rules that fit evaluates only expressions that fit their scopes, and binds the
names in scope to values of their types. -/
theorem Rule.Reaches.fits {ctx : WalkContext} {outer : TyEnv} {trail : List (List Condition)}
    {rule : Rule} {m : Moment} (h : rule.Reaches ctx trail env m) (hr : ctx.registry.Sound)
    (hf : rule.Fits ctx.registry (outer.after ctx.registry trail.flatten))
    (hm : env.Models (outer.after ctx.registry trail.flatten)) :
    m.expr.Fits ctx.registry (m.tyEnv ctx.registry outer) ∧
      m.env.Models (m.tyEnv ctx.registry outer) := by
  have hflatten (trail : List (List Condition)) (conditions : List Condition) :
      outer.after ctx.registry (trail ++ [conditions]).flatten =
        (outer.after ctx.registry trail.flatten).after ctx.registry conditions := by
    rw [List.flatten_append, List.flatten_singleton, TyEnv.after_append]
  induction h with
  | @condition trail env rule before c after inner hsplit hholds =>
    have hconditions := hf.conditions_fit
    rw [hsplit] at hconditions
    rw [WalkContext.outcome_holds?] at hholds
    obtain ⟨hmodels, hc, -⟩ := hm.test hr hconditions hholds
    rw [Moment.tyEnv, hflatten]
    exact ⟨hc.1, hmodels⟩
  | @endpoint trail env head body inner e hholds he =>
    rw [WalkContext.outcome_holds?] at hholds
    have hmodels := hm.test_all hr hf.1 hholds
    rw [Moment.tyEnv, hflatten]
    exact ⟨hf.2 e he.mem_exprs, hmodels⟩
  | @message trail env head message inner hholds =>
    rw [WalkContext.outcome_holds?] at hholds
    have hmodels := hm.test_all hr hf.1 hholds
    rw [Moment.tyEnv, hflatten]
    exact ⟨hf.2, hmodels⟩
  | @child trail env head before rule after inner m hholds _ _ ih =>
    rw [WalkContext.outcome_holds?] at hholds
    have hmodels := hm.test_all hr hf.1 hholds
    rw [← hflatten] at hmodels
    have hrule := (Rule.allFit_iff _).mp hf.2 rule (by simp)
    rw [← hflatten] at hrule
    exact ih hrule hmodels.push

end EndpointRules
