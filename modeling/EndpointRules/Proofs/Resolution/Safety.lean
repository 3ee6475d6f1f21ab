import EndpointRules.Proofs.AttrPath
import EndpointRules.Proofs.Binding

/-! What loading promises about resolving: which errors a call may end in, and that the values of a
resolution belong to their static types. -/

namespace EndpointRules
variable {document : Json} {res : Resolver} {frame : Frame} {m : Moment}

private theorem EvalError.IsMisplaced.code {e : EvalError} (h : e.IsMisplaced) :
    e.code? = some .evaluation := by
  cases e with
  | notText context got => rfl
  | absentProperty context => rfl
  | _ => cases h

namespace Resolver

/-- Each expression of a resolution is evaluated where it fits and where the names in scope have
values of their types. -/
private theorem Evaluates.fits {outer : TyEnv} (h : res.Evaluates frame m) (hr : res.registry.Sound)
    (hf : Rule.AllFit res.registry outer res.ruleSet.rules)
    (hm : (Environment.ofFrame frame).Models outer) :
    m.expr.Fits res.registry (m.tyEnv res.registry outer) ∧
      m.env.Models (m.tyEnv res.registry outer) := by
  obtain ⟨before, rule, after, e, hsplit, -, hrule, he⟩ := h
  have hfit : rule.Fits res.registry outer := by
    rw [hsplit] at hf
    exact (Rule.allFit_iff _).mp hf rule (by simp)
  obtain ⟨hexpr, hmodels⟩ := hrule.fits hr hfit hm.push
  exact ⟨he.fits hexpr, hmodels⟩

/-- The scope in which an expression of a loaded rule set is checked. -/
def scopeAt (res : Resolver) (m : Moment) : TyEnv :=
  m.tyEnv .standard (TyEnv.ofParameters res.ruleSet.parameters)

private theorem Serves.fits (h : res.Serves document) {arguments : List (Text × Argument)}
    (hb : (res.bind arguments).outcome = .ok frame) (hm : res.Evaluates frame m) :
    m.expr.Fits .standard (res.scopeAt m) ∧ m.env.Models (res.scopeAt m) := by
  have hmodels := models_of_bindAll h.loaded.defaults_fit (bindAll_of_bindParameters hb)
  have hfit := hm.fits (h.registry_eq ▸ Registry.standard_sound)
    (h.registry_eq ▸ h.loaded.rules_fit) hmodels
  rwa [h.registry_eq] at hfit

/-- What an evaluation of a call may end in: an error about values or templates, a breakdown over
the data of an expression that the walk evaluates, or an error about types; and then it is a call
with an argument that may be anything. -/
inductive Raised (res : Resolver) (frame : Frame) (e : EvalError) : Prop
  | value : e.code? = some .evaluation → Raised res frame e
  | template : e.code? = some .template → Raised res frame e
  | breakdown {m : Moment} {b : Breakdown} : res.Evaluates frame m → e = .breakdown b →
      m.expr.Raises .standard m.env e → b.isOverData = true → Raised res frame e
  | type {m : Moment} {f : Name} {args : List Expr} {arg : Expr} : e.code? = some .type →
      res.Evaluates frame m → m.expr = .call f args → m.expr.Raises .standard m.env e →
      arg ∈ args → arg.ty .standard (res.scopeAt m) = .any → Raised res frame e

private theorem Serves.raised (h : res.Serves document) {arguments : List (Text × Argument)}
    (hb : (res.bind arguments).outcome = .ok frame) {e : EvalError}
    (he : (res.resolveBound frame).outcome = .error (.eval e)) : res.Raised frame e := by
  obtain ⟨m, hm, hraises⟩ | hmisplaced := exists_raises he
  · obtain ⟨hfits, hmodels⟩ := h.fits hb hm
    rw [h.registry_eq] at hraises
    obtain hcode | (hcode | ⟨b, hbreaks, hover⟩) | ⟨hcode, f, args, hcall, arg, harg, hany⟩ :=
      hraises.cases Registry.standard_sound hmodels hfits
    · exact .value hcode
    · exact .template hcode
    · exact .breakdown hm hbreaks hraises hover
    · exact .type hcode hm hcall hraises harg hany
  · exact .value hmisplaced.code

/-- Values of a resolution belong to their static types. A type error comes from a call with an
argument that may be anything by its static type. -/
theorem values_typed (h : res.Serves document) {arguments : List (Text × Argument)}
    (hb : (res.bind arguments).outcome = .ok frame) :
    (∀ m v, res.Evaluates frame m → (m.expr.eval .standard m.env).outcome = .ok (some v) →
      (m.expr.ty .standard (res.scopeAt m)).admits v = true) ∧
    ∀ e, (res.resolveBound frame).outcome = .error (.eval e) → e.code? = some .type →
      ∃ m f args, res.Evaluates frame m ∧ m.expr = .call f args ∧
        m.expr.Raises .standard m.env e ∧
          ∃ arg ∈ args, arg.ty .standard (res.scopeAt m) = .any := by
  constructor
  · intro m v hm hv
    obtain ⟨hfits, hmodels⟩ := h.fits hb hm
    exact Expr.eval_admits Registry.standard_sound hmodels hfits hv v rfl
  · intro e he htype
    cases h.raised hb he with
    | value hcode => cases hcode.symm.trans htype
    | template hcode => cases hcode.symm.trans htype
    | breakdown _ hbreaks =>
      rw [hbreaks] at htype
      cases htype
    | type _ hm hcall hraises harg hany => exact ⟨_, _, _, hm, hcall, hraises, _, harg, hany⟩

theorem values_typed_sample :
    ∃ m f args, sampleResolver.Evaluates (sampleFrame "scheme") m ∧ m.expr = .call f args ∧
      m.expr.Raises .standard m.env (.typeMismatch "bool" "string" "not") ∧
      ∃ arg ∈ args, arg.ty .standard (sampleResolver.scopeAt m) = .any := by
  have hbind : (sampleResolver.bind (sampleArguments "scheme")).outcome =
      .ok (sampleFrame "scheme") := by
    decide +kernel
  have herror : Outcome.error? (sampleResolver.resolveBound (sampleFrame "scheme")).outcome =
      some (.eval (.typeMismatch "bool" "string" "not")) := by
    decide +kernel
  exact (values_typed sampleResolver_serves hbind).2 _ (Outcome.error?_eq_some_iff.mp herror) rfl

end Resolver
end EndpointRules
