import EndpointRules.Proofs.Document.Loaded
import EndpointRules.Proofs.Json.Reading

/-! Rules that are built from a document whose objects have no key twice: none of their record
expressions has a field twice, and no endpoint has a header or a property twice. -/

namespace EndpointRules
open Outcome

namespace Json

variable {fields : List (Text × Json)}

theorem Distinct.of_get? (h : (Json.obj fields).Distinct) {key : Text} {d : Json}
    (hget : Fields.get? key fields = some d) : d.Distinct := by
  cases h with
  | obj _ hmembers => exact hmembers _ (Fields.mem_of_get? hget)

/-- The datum of a key that may be left out. -/
theorem Distinct.of_getD (h : (Json.obj fields).Distinct) {key : Text} {default d : Json}
    (hdefault : default.Distinct) (hget : (Fields.get? key fields).getD default = d) :
    d.Distinct := by
  cases hfound : Fields.get? key fields with
  | some found =>
    rw [hfound] at hget
    cases hget
    exact h.of_get? hfound
  | none =>
    rw [hfound] at hget
    cases hget
    exact hdefault

private theorem Distinct.drop (h : (Json.obj fields).Distinct) (key : Text) :
    (Json.obj (Fields.drop key fields)).Distinct := by
  cases h with
  | obj hkeys hmembers =>
    refine .obj ?_ fun field hfield => hmembers field (List.mem_of_mem_filter hfield)
    exact hkeys.sublist (List.filter_sublist.map _)

theorem distinct_obj_nil : (obj []).Distinct := .obj List.nodup_nil (by simp)

end Json

/-- No record that an expression makes has two fields of one name. -/
inductive Expr.Distinct : Expr → Prop
  | bool (b : Bool) : Distinct (.bool b)
  | int (n : Int) : Distinct (.int n)
  | template (t : Template) : Distinct (.template t)
  | list {items : List Expr} : (∀ e ∈ items, Distinct e) → Distinct (.list items)
  | record {fields : List (Text × Expr)} :
      (Fields.keys fields).Nodup → (∀ field ∈ fields, Distinct field.2) →
      Distinct (.record fields)
  | ref (name : Name) : Distinct (.ref name)
  | call {f : Name} {args : List Expr} : (∀ e ∈ args, Distinct e) → Distinct (.call f args)

/-- No header and no property of an endpoint is given twice. -/
structure EndpointBody.Distinct (body : EndpointBody) : Prop where
  headers : (Fields.keys body.headers).Nodup
  properties : (Expr.record body.properties).Distinct

/-- What is evaluated for conditions and results of a rule makes no record with a field twice. -/
inductive Rule.Distinct : Rule → Prop
  | endpoint {head : RuleHead} {body : EndpointBody} :
      (∀ c ∈ head.conditions, c.expr.Distinct) → body.Distinct → Distinct (.endpoint head body)
  | error {head : RuleHead} {message : Expr} :
      (∀ c ∈ head.conditions, c.expr.Distinct) → Distinct (.error head message)
  | tree {head : RuleHead} {rules : List Rule} :
      (∀ c ∈ head.conditions, c.expr.Distinct) → (∀ rule ∈ rules, Distinct rule) →
      Distinct (.tree head rules)

namespace Document

/-! Expressions. -/

private theorem distinct_buildTemplate {source : Text} {e : Expr}
    (h : buildTemplate source = .ok e) :
    e.Distinct := by
  obtain ⟨t, -, rfl⟩ := map_ok_iff.mp h
  exact .template t

private theorem distinct_buildTemplates {sources : List Text} {es : List Expr}
    (h : buildTemplates sources = .ok es) : ∀ e ∈ es, e.Distinct := by
  induction sources generalizing es with
  | nil =>
    cases h
    simp
  | cons source rest ih =>
    obtain ⟨first, hfirst, h⟩ := bind_ok_iff.mp h
    obtain ⟨others, hothers, h⟩ := bind_ok_iff.mp h
    cases h
    exact List.forall_mem_cons.mpr ⟨distinct_buildTemplate hfirst, ih hothers⟩

mutual
private theorem distinct_buildExpr : (d : Json) → (e : Expr) → d.Distinct → buildExpr d = .ok e →
    e.Distinct
  | .str s, e, _, h => by
    rw [buildExpr] at h
    exact distinct_buildTemplate h
  | .bool b, e, _, h => by
    cases h
    exact .bool b
  | .int n, e, _, h => by
    cases h
    exact .int n
  | .arr items, e, hd, h => by
    cases hd with
    | arr hitems =>
    rw [buildExpr] at h
    obtain ⟨es, hes, rfl⟩ := map_ok_iff.mp h
    exact .list (distinct_buildItems items es hitems hes)
  | .obj fields, e, hd, h => by
    cases hd with
    | obj hkeys hmembers =>
    unfold buildExpr at h
    split at h
    · cases h
      exact .ref _
    · split at h
      · exact distinct_buildCall _ fields e hmembers h
      · obtain ⟨es, hes, rfl⟩ := map_ok_iff.mp h
        obtain ⟨hsame, hall⟩ := distinct_buildFields fields es hmembers hes
        exact .record (hsame ▸ hkeys) hall
  | .null, _, _, h | .float _, _, _, h => by simp [buildExpr] at h

private theorem distinct_buildItems : (items : List Json) → (es : List Expr) →
    (∀ item ∈ items, item.Distinct) → buildItems items = .ok es → ∀ e ∈ es, e.Distinct
  | [], es, _, h => by
    cases h
    simp
  | item :: rest, es, hd, h => by
    rw [buildItems] at h
    obtain ⟨first, hfirst, h⟩ := bind_ok_iff.mp h
    obtain ⟨others, hothers, h⟩ := bind_ok_iff.mp h
    cases h
    obtain ⟨hitem, hrest⟩ := List.forall_mem_cons.mp hd
    exact List.forall_mem_cons.mpr ⟨distinct_buildExpr item first hitem hfirst,
      distinct_buildItems rest others hrest hothers⟩

/-- The fields of a record expression are those of the object, by name and in order. -/
private theorem distinct_buildFields : (fields : List (Text × Json)) → (es : List (Text × Expr)) →
    (∀ field ∈ fields, field.2.Distinct) → buildFields fields = .ok es →
    Fields.keys es = Fields.keys fields ∧ ∀ field ∈ es, field.2.Distinct
  | [], es, _, h => by
    cases h
    exact ⟨rfl, by simp⟩
  | (key, item) :: rest, es, hd, h => by
    rw [buildFields] at h
    obtain ⟨first, hfirst, h⟩ := bind_ok_iff.mp h
    obtain ⟨others, hothers, h⟩ := bind_ok_iff.mp h
    cases h
    obtain ⟨hitem, hrest⟩ := List.forall_mem_cons.mp hd
    obtain ⟨hkeys, hall⟩ := distinct_buildFields rest others hrest hothers
    exact ⟨congrArg (key :: ·) hkeys,
      List.forall_mem_cons.mpr ⟨distinct_buildExpr item first hitem hfirst, hall⟩⟩

private theorem distinct_buildCall : (name : Name) → (fields : List (Text × Json)) → (e : Expr) →
    (∀ field ∈ fields, field.2.Distinct) → buildCall name fields = .ok e → e.Distinct
  | _, [], _, _, h => by simp [buildCall] at h
  | name, (key, args) :: rest, e, hd, h => by
    obtain ⟨hargs, hrest⟩ := List.forall_mem_cons.mp hd
    rw [buildCall] at h
    split at h
    · obtain ⟨es, hes, rfl⟩ := map_ok_iff.mp h
      exact .call (distinct_buildArgs args es hargs hes)
    · exact distinct_buildCall name rest e hrest h

private theorem distinct_buildArgs : (args : Json) → (es : List Expr) → args.Distinct →
    buildArgs args = .ok es → ∀ e ∈ es, e.Distinct
  | .arr items, es, hd, h => by
    cases hd with
    | arr hitems =>
    rw [buildArgs] at h
    exact distinct_buildItems items es hitems h
  | .str s, es, _, h => distinct_buildTemplates h
  | .obj fields, es, _, h => distinct_buildTemplates h
  | .null, _, _, h | .bool _, _, _, h | .int _, _, _, h | .float _, _, _, h => by
    simp [buildArgs] at h
end

/-! Rules. -/

private theorem distinct_buildCondition {raw : Json} {c : Condition} (hd : raw.Distinct)
    (h : buildCondition raw = .ok c) : c.expr.Distinct := by
  obtain ⟨fields, hfields, h⟩ := bind_ok_iff.mp h
  obtain ⟨e, he, h⟩ := bind_ok_iff.mp h
  obtain ⟨name, -, h⟩ := bind_ok_iff.mp h
  cases h
  cases raw with
  | obj _ =>
    cases hfields
    exact distinct_buildExpr _ e (hd.drop "assign") he
  | _ => cases hfields

private theorem distinct_buildConditions {raws : List Json} {conditions : List Condition}
    (hd : ∀ raw ∈ raws, raw.Distinct) (h : buildConditions raws = .ok conditions) :
    ∀ c ∈ conditions, c.expr.Distinct := by
  induction raws generalizing conditions with
  | nil =>
    cases h
    simp
  | cons raw rest ih =>
    obtain ⟨first, hfirst, h⟩ := bind_ok_iff.mp h
    obtain ⟨others, hothers, h⟩ := bind_ok_iff.mp h
    cases h
    obtain ⟨hraw, hrest⟩ := List.forall_mem_cons.mp hd
    exact List.forall_mem_cons.mpr ⟨distinct_buildCondition hraw hfirst, ih hrest hothers⟩

private theorem keys_buildHeaders {raws : List (Text × Json)} {headers : List (Text × List Expr)}
    (h : buildHeaders raws = .ok headers) : Fields.keys headers = Fields.keys raws := by
  induction raws generalizing headers with
  | nil =>
    cases h
    rfl
  | cons raw rest ih =>
    obtain ⟨name, values⟩ := raw
    obtain ⟨given, -, h⟩ := bind_ok_iff.mp h
    obtain ⟨exprs, -, h⟩ := bind_ok_iff.mp h
    obtain ⟨others, hothers, h⟩ := bind_ok_iff.mp h
    cases h
    exact congrArg (name :: ·) (ih hothers)

theorem members_ok {d : Json} {fields : List (Text × Json)} (h : members d = .ok fields) :
    d = .obj fields := by
  cases d with
  | obj _ =>
    cases h
    rfl
  | _ => cases h

private theorem items_ok {d : Json} {found : List Json} (h : items d = .ok found) :
    d = .arr found := by
  cases d with
  | arr _ =>
    cases h
    rfl
  | _ => cases h

private theorem distinct_buildEndpoint {raw : Json} {body : EndpointBody} (hd : raw.Distinct)
    (h : buildEndpoint raw = .ok body) : body.Distinct := by
  simp only [buildEndpoint, bind_ok_iff] at h
  obtain ⟨fields, hfields, _, -, _, -, properties, hproperties, exprs, hexprs, headers, hheaders,
    built, hbuilt, h⟩ := h
  cases h
  cases members_ok hfields
  have hp : (Json.obj properties).Distinct :=
    hd.of_getD Json.distinct_obj_nil (members_ok hproperties)
  have hh : (Json.obj headers).Distinct :=
    hd.of_getD Json.distinct_obj_nil (members_ok hheaders)
  cases hp with
  | obj hkeys hmembers =>
  obtain ⟨hsame, hall⟩ := distinct_buildFields properties exprs hmembers hexprs
  cases hh with
  | obj hnames _ => exact ⟨keys_buildHeaders hbuilt ▸ hnames, .record (hsame ▸ hkeys) hall⟩

mutual
private theorem distinct_buildRule : (path : Text) → (raw : Json) → (rule : Rule) → raw.Distinct →
    buildRule path raw = .ok rule → rule.Distinct
  | path, .obj fields, rule, hd, h => by
    simp only [buildRule, bind_ok_iff] at h
    obtain ⟨raws, hraws, conditions, hconditions, documentation, -, kind, -, h⟩ := h
    have harray : (Json.arr raws).Distinct := hd.of_getD (.arr (by simp)) (items_ok hraws)
    have hall : ∀ c ∈ conditions, c.expr.Distinct := by
      cases harray with
      | arr hitems => exact distinct_buildConditions hitems hconditions
    split at h
    · obtain ⟨endpoint, hendpoint, h⟩ := bind_ok_iff.mp h
      obtain ⟨body, hbody, h⟩ := bind_ok_iff.mp h
      cases h
      exact .endpoint hall (distinct_buildEndpoint (hd.of_get? (need_ok hendpoint)) hbody)
    · obtain ⟨_, -, h⟩ := bind_ok_iff.mp h
      obtain ⟨message, -, h⟩ := bind_ok_iff.mp h
      cases h
      exact .error hall
    · obtain ⟨rules, hrules, h⟩ := bind_ok_iff.mp h
      cases h
      cases hd with
      | obj _ hmembers =>
        exact .tree hall (distinct_buildChildren path fields rules hmembers hrules)
  | _, .null, _, _, h | _, .bool _, _, _, h | _, .int _, _, _, h | _, .float _, _, _, h
  | _, .str _, _, _, h | _, .arr _, _, _, h => by simp [buildRule] at h

private theorem distinct_buildChildren : (path : Text) → (fields : List (Text × Json)) →
    (rules : List Rule) → (∀ field ∈ fields, field.2.Distinct) →
    buildChildren path fields = .ok rules → ∀ rule ∈ rules, rule.Distinct
  | _, [], _, _, h => by simp [buildChildren] at h
  | path, (key, raw) :: rest, rules, hd, h => by
    obtain ⟨hraw, hrest⟩ := List.forall_mem_cons.mp hd
    rw [buildChildren] at h
    split at h
    · exact distinct_buildRuleArray path raw rules hraw h
    · exact distinct_buildChildren path rest rules hrest h

private theorem distinct_buildRuleArray : (path : Text) → (raw : Json) → (rules : List Rule) →
    raw.Distinct → buildRuleArray path raw = .ok rules → ∀ rule ∈ rules, rule.Distinct
  | path, .arr raws, rules, hd, h => by
    cases hd with
    | arr hitems =>
    rw [buildRuleArray] at h
    exact distinct_buildRules path 0 raws rules hitems h
  | _, .null, _, _, h | _, .bool _, _, _, h | _, .int _, _, _, h | _, .float _, _, _, h
  | _, .str _, _, _, h | _, .obj _, _, _, h => by simp [buildRuleArray] at h

private theorem distinct_buildRules : (path : Text) → (index : Nat) → (raws : List Json) →
    (rules : List Rule) → (∀ raw ∈ raws, raw.Distinct) → buildRules path index raws = .ok rules →
    ∀ rule ∈ rules, rule.Distinct
  | _, _, [], rules, _, h => by
    cases h
    simp
  | path, index, raw :: rest, rules, hd, h => by
    rw [buildRules] at h
    obtain ⟨first, hfirst, h⟩ := bind_ok_iff.mp h
    obtain ⟨others, hothers, h⟩ := bind_ok_iff.mp h
    cases h
    obtain ⟨hraw, hrest⟩ := List.forall_mem_cons.mp hd
    exact List.forall_mem_cons.mpr ⟨distinct_buildRule _ raw first hraw hfirst,
      distinct_buildRules path (index + 1) rest others hrest hothers⟩
end

end Document

/-- Rule sets are loaded from text in which no object has a key twice. -/
private theorem RuleSet.distinct_document {text : Text} {d : Json} (h : document text = .ok d) :
    d.Distinct := by
  unfold document at h
  split at h
  · next hparse =>
    cases h
    exact Json.distinct_parseDistinct hparse
  · cases h
  · cases h
  · cases h

end EndpointRules
