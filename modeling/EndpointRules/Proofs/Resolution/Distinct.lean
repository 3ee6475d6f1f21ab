import EndpointRules.Proofs.Cache.Keys
import EndpointRules.Proofs.Document.Distinct
import EndpointRules.Proofs.Related
import EndpointRules.Proofs.Resolution.Course

/-! Results of a resolution of a document whose objects have no key twice. Their properties are the
data of values, and no header, no property and no object below them comes twice. -/

namespace EndpointRules

/-- A value that may be absent has no record with two fields of one name. -/
def Value.DistinctIfAny (v : Option Value) : Prop := ∀ w, v = some w → w.Distinct

namespace Function

/-- The answer is a value without repeated names if all arguments are. -/
def KeepsDistinct (f : Function) : Prop :=
  ∀ args v, (∀ arg ∈ args, Value.DistinctIfAny arg) → f.body args = .ok v → Value.DistinctIfAny v

end Function

namespace Function

end Function

/-- All names are bound to values without repeated names. -/
def Environment.Distinct (env : Environment) : Prop :=
  ∀ name v, env.find? name = some v → Value.DistinctIfAny v

namespace Expr
variable {r : Registry} {env : Environment}

/-- The fields that a record expression gives are some of its fields, in the same order. -/
private theorem evalFields_ok {fields : List (Text × Expr)} {vs : List (Text × Value)}
    (h : (evalFields r env fields).outcome = .ok vs) :
    (Fields.keys vs).Sublist (Fields.keys fields) ∧
      ∀ entry ∈ vs, ∃ field ∈ fields, (field.2.eval r env).outcome = .ok (some entry.2) := by
  induction fields generalizing vs with
  | nil =>
    cases h
    exact ⟨.slnil, by simp⟩
  | cons field rest ih =>
    obtain ⟨name, e⟩ := field
    rw [evalFields] at h
    obtain ⟨v, hv, h⟩ := Noted.bind_ok_iff.mp h
    obtain ⟨others, hothers, h⟩ := Noted.bind_ok_iff.mp h
    obtain ⟨hkeys, hvalues⟩ := ih hothers
    have hlater : ∀ entry ∈ others, ∃ field ∈ (name, e) :: rest,
        (field.2.eval r env).outcome = .ok (some entry.2) := by
      intro entry hentry
      obtain ⟨field, hfield, hvalue⟩ := hvalues entry hentry
      exact ⟨field, List.mem_cons_of_mem _ hfield, hvalue⟩
    cases v with
    | none =>
      cases h
      exact ⟨hkeys.cons _, hlater⟩
    | some v =>
      cases h
      exact ⟨hkeys.cons_cons _, List.forall_mem_cons.mpr ⟨⟨_, List.mem_cons_self, hv⟩, hlater⟩⟩

private theorem distinct_lookupName (henv : env.Distinct) {name : Name} {v : Option Value}
    (h : env.lookupName name = .ok v) : Value.DistinctIfAny v := by
  cases name with
  | text s =>
    rw [Environment.lookupName, Environment.lookup] at h
    split at h
    · next hfind =>
      cases h
      exact henv s _ hfind
    · cases h
  | other given =>
    rw [Environment.lookupName] at h
    · split at h <;> cases h
    · rintro s ⟨⟩

private theorem distinct_call (hr : ∀ f ∈ r.functions, f.KeepsDistinct) {name : Name}
    {args : List (Option Value)} {v : Option Value}
    (hargs : ∀ arg ∈ args, Value.DistinctIfAny arg) (h : r.call name args = .ok v) :
    Value.DistinctIfAny v := by
  rw [Registry.call] at h
  obtain ⟨f, hf, h⟩ := Outcome.bind_ok_iff.mp h
  obtain ⟨s, -, hfind, -⟩ := Registry.getFor_ok_iff.mp hf
  exact hr f (List.mem_of_find?_eq_some hfind) args v hargs h

/-- Evaluation keeps to values without repeated names. -/
private theorem distinct_eval (hr : ∀ f ∈ r.functions, f.KeepsDistinct) (henv : env.Distinct)
    {e : Expr}
    {v : Option Value} (he : e.Distinct) (h : (e.eval r env).outcome = .ok v) :
    Value.DistinctIfAny v := by
  induction e using Expr.ind generalizing v with
  | bool b =>
    cases h
    rintro w ⟨⟩
    exact .bool b
  | int n =>
    cases h
    rintro w ⟨⟩
    exact .int n
  | template t =>
    rw [eval, Noted.outcome_ofExcept, Outcome.map_ok_iff] at h
    obtain ⟨s, -, rfl⟩ := h
    rintro w ⟨⟩
    exact .string s
  | list items ih =>
    cases he with
    | list hitems =>
    obtain ⟨vs, hvs, h⟩ := Noted.bind_ok_iff.mp h
    cases h
    rintro w ⟨⟩
    refine .list fun v hv => ?_
    obtain ⟨e, he, heval⟩ := Related.exists_of_mem_right (evalItems_ok_iff.mp hvs) hv
    exact ih e he (hitems e he) heval v rfl
  | record fields ih =>
    cases he with
    | record hkeys hfields =>
    obtain ⟨vs, hvs, h⟩ := Noted.bind_ok_iff.mp h
    cases h
    rintro w ⟨⟩
    obtain ⟨hsub, hvalues⟩ := evalFields_ok hvs
    refine .record (hkeys.sublist hsub) fun entry hentry => ?_
    obtain ⟨field, hfield, heval⟩ := hvalues entry hentry
    exact ih field hfield (hfields field hfield) heval _ rfl
  | ref name => exact distinct_lookupName henv h
  | call f args ih =>
    cases he with
    | call hargs =>
    obtain ⟨vs, hvs, h⟩ := Noted.bind_ok_iff.mp h
    rw [outcome_apply] at h
    refine distinct_call hr (fun arg harg => ?_) h
    obtain ⟨e, he, heval⟩ := Related.exists_of_mem_right (evalArgs_ok_iff.mp hvs) harg
    exact ih e he (hargs e he) heval

end Expr

/-! The walk. -/

namespace Environment.Distinct
variable {r : Registry} {env : Environment}

private theorem push (henv : env.Distinct) : env.push.Distinct := henv

private theorem pass (henv : env.Distinct) {c : Condition} {v : Option Value}
    (hv : Value.DistinctIfAny v) : (env.pass c v).Distinct := by
  intro name w h
  cases hassign : c.assign with
  | none =>
    rw [Environment.pass, hassign] at h
    exact henv name w h
  | some assigned =>
    rw [Environment.pass, hassign] at h
    dsimp only at h
    rw [find?_bind] at h
    split at h
    · cases h
      exact hv
    · exact henv name w h

private theorem test (henv : env.Distinct) (hr : ∀ f ∈ r.functions, f.KeepsDistinct)
    {conditions : List Condition} {inner : Environment}
    (hc : ∀ c ∈ conditions, c.expr.Distinct)
    (h : env.test r conditions = .ok (some inner)) : inner.Distinct := by
  induction conditions generalizing env with
  | nil =>
    cases h
    exact henv
  | cons c rest ih =>
    obtain ⟨hfirst, hrest⟩ := List.forall_mem_cons.mp hc
    obtain ⟨v, hv, h⟩ := Environment.test_cons_some h
    exact ih (henv.pass (Expr.distinct_eval hr henv hfirst hv)) hrest h

end Environment.Distinct

private theorem Rule.Distinct.conditions {rule : Rule} (h : rule.Distinct) :
    ∀ c ∈ rule.conditions, c.expr.Distinct := by
  cases h with
  | endpoint hc => exact hc
  | error hc => exact hc
  | tree hc => exact hc

/-- The properties of a result are data of values, and no name comes twice in them or among the
headers. -/
inductive Resolution.Distinct : Resolution → Prop
  | endpoint {url : Text} {headers : List (Text × List Text)}
      {properties : List (Text × Value)} :
      (Fields.keys headers).Nodup → (Value.record properties).Distinct →
      Distinct (.endpoint url headers (Value.fieldsToJson properties))
  | error (message : Text) : Distinct (.error message)

namespace WalkContext
variable {ctx : WalkContext} {env : Environment}

/-- A walk through rules without repeated names comes only to such environments and rules. -/
private theorem ComesTo.distinct {position : List Nat} {rule : Rule} {stop : Stop}
    (h : ctx.ComesTo position env rule stop)
    (hr : ∀ f ∈ ctx.registry.functions, f.KeepsDistinct) (henv : env.Distinct)
    (hrule : rule.Distinct) : stop.env.Distinct ∧ stop.rule.Distinct := by
  induction h with
  | @here position env rule held rest inner hsplit htest =>
    refine ⟨henv.test hr (fun c hc => ?_) htest, hrule⟩
    exact hrule.conditions c (hsplit ▸ List.mem_append_left _ hc)
  | @child position env head before rule after inner stop htest _ _ ih =>
    cases hrule with
    | tree hc hrules => exact ih (henv.test hr hc htest).push (hrules rule (by simp))

end WalkContext

private theorem Frame.Typed.distinct {parameters : List Parameter} {frame : Frame}
    (h : frame.Typed parameters) : (Environment.ofFrame frame).Distinct := by
  intro name v hfind w hw
  rw [Environment.find?_ofFrame] at hfind
  obtain ⟨p, -, -, hadmits⟩ := Related.exists_of_mem_right h (Fields.mem_of_get? hfind)
  have haccepts := hadmits w hw
  rw [Parameter.staticType, ParameterType.admits_staticType] at haccepts
  exact Value.distinct_of_accepts haccepts

namespace Resolver
variable {res : Resolver} {document : Json} {frame : Frame}

end Resolver
end EndpointRules
