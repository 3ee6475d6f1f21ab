import EndpointRules.Proofs.Document.Buildable
import EndpointRules.Proofs.Document.Distinct
import EndpointRules.Proofs.Related
import EndpointRules.Proofs.Scope.Lexical

/-! Valid parts of a rule tree. An expression is valid if it is built from a datum in which no
defect was found, and then all expressions in it are valid too. In a loaded rule tree every
expression is valid except for properties beside a `ref` or `fn`, which are not looked at one by
one. -/

namespace EndpointRules
open Document Outcome
variable {r : Registry}

namespace Document

/-! What validation found of the parts of an expression. -/

private theorem args_of_clean_validateCall {name : Text} {whole : Json}
    {fields : List (Text × Json)}
    (h : (validateCall r name whole fields).Clean) :
    ∃ args, Fields.get? "argv" fields = some args ∧ (validateArgs r name whole args).Clean := by
  induction fields with
  | nil =>
    rw [validateCall] at h
    exact absurd h (not_clean_invalid _ _)
  | cons field rest ih =>
    obtain ⟨key, args⟩ := field
    rw [validateCall] at h
    rw [Fields.get?]
    split at h
    · rw [if_pos ‹_›]
      exact ⟨args, rfl, h⟩
    · rw [if_neg ‹_›]
      exact ih h

/-! What the parts of an expression are built from. -/

theorem buildItems_ok_iff {raws : List Json} {es : List Expr} :
    buildItems raws = .ok es ↔ List.Forall₂ (fun raw e => buildExpr raw = .ok e) raws es := by
  induction raws generalizing es with
  | nil =>
    rw [buildItems, List.forall₂_nil_left_iff]
    constructor
    · rintro ⟨⟩
      rfl
    · rintro rfl
      rfl
  | cons raw rest ih =>
    simp only [buildItems, bind_ok_iff, ih, List.forall₂_cons_left_iff]
    constructor
    · rintro ⟨e, he, others, hothers, ⟨⟩⟩
      exact ⟨e, others, he, hothers, rfl⟩
    · rintro ⟨e, others, he, hothers, rfl⟩
      exact ⟨e, he, others, hothers, rfl⟩

private theorem buildFields_ok_iff {raws : List (Text × Json)} {fields : List (Text × Expr)} :
    buildFields raws = .ok fields ↔
      List.Forall₂ (fun raw field => field.1 = raw.1 ∧ buildExpr raw.2 = .ok field.2)
        raws fields := by
  induction raws generalizing fields with
  | nil =>
    rw [buildFields, List.forall₂_nil_left_iff]
    constructor
    · rintro ⟨⟩
      rfl
    · rintro rfl
      rfl
  | cons raw rest ih =>
    obtain ⟨key, item⟩ := raw
    simp only [buildFields, bind_ok_iff, ih, List.forall₂_cons_left_iff]
    constructor
    · rintro ⟨e, he, others, hothers, ⟨⟩⟩
      exact ⟨(key, e), others, ⟨rfl, he⟩, hothers, rfl⟩
    · rintro ⟨⟨_, e⟩, others, ⟨rfl, he⟩, hothers, rfl⟩
      exact ⟨e, he, others, hothers, rfl⟩

private theorem args_of_buildCall {name : Name} {fields : List (Text × Json)} {e : Expr}
    (h : buildCall name fields = .ok e) :
    ∃ args es, Fields.get? "argv" fields = some args ∧ buildArgs args = .ok es ∧
      e = .call name es := by
  induction fields with
  | nil =>
    rw [buildCall] at h
    cases h
  | cons field rest ih =>
    obtain ⟨key, args⟩ := field
    rw [buildCall] at h
    rw [Fields.get?]
    split at h
    · obtain ⟨es, hes, rfl⟩ := map_ok_iff.mp h
      rw [if_pos ‹_›]
      exact ⟨args, es, rfl, hes, rfl⟩
    · rw [if_neg ‹_›]
      exact ih h

/-- What an expression is built from, by the kind of the expression. -/
inductive BuiltFrom : Json → Expr → Prop
  | bool (b : Bool) : BuiltFrom (.bool b) (.bool b)
  | int (n : Int) : BuiltFrom (.int n) (.int n)
  | template {s : Text} {t : Template} : Template.parse s = .ok t →
      BuiltFrom (.str s) (.template t)
  | list {raws : List Json} {es : List Expr} : buildItems raws = .ok es →
      BuiltFrom (.arr raws) (.list es)
  | record {raws : List (Text × Json)} {fields : List (Text × Expr)} :
      Fields.get? "ref" raws = none → Fields.get? "fn" raws = none → buildFields raws = .ok fields →
      BuiltFrom (.obj raws) (.record fields)
  | ref {raws : List (Text × Json)} {name : Json} : Fields.get? "ref" raws = some name →
      BuiltFrom (.obj raws) (.ref (Name.ofJson name))
  | call {raws : List (Text × Json)} {name rawArgs : Json} {args : List Expr} :
      Fields.get? "ref" raws = none → Fields.get? "fn" raws = some name →
      Fields.get? "argv" raws = some rawArgs → buildArgs rawArgs = .ok args →
      BuiltFrom (.obj raws) (.call (Name.ofJson name) args)

theorem builtFrom_of_buildExpr {raw : Json} {e : Expr} (h : buildExpr raw = .ok e) :
    BuiltFrom raw e := by
  unfold buildExpr at h
  cases raw with
  | str s =>
    obtain ⟨t, ht, rfl⟩ := map_ok_iff.mp h
    exact .template (mapError_ok_iff.mp ht)
  | bool b =>
    cases h
    exact .bool b
  | int n =>
    cases h
    exact .int n
  | arr items =>
    obtain ⟨es, hes, rfl⟩ := map_ok_iff.mp h
    exact .list hes
  | obj fields =>
    dsimp only at h
    split at h
    · next name href =>
      cases h
      exact .ref href
    · next href =>
      split at h
      · next name hfn =>
        obtain ⟨args, es, hget, hes, rfl⟩ := args_of_buildCall h
        exact .call href hfn hget hes
      · next hfn =>
        obtain ⟨es, hes, rfl⟩ := map_ok_iff.mp h
        exact .record href hfn hes
  | null => cases h
  | float x => cases h

end Document

namespace Expr
variable {e sub : Expr}

/-- An expression is valid if it is built from a datum in which no defect was found. -/
def Valid (r : Registry) (e : Expr) : Prop :=
  ∃ raw, (validateExpr r raw).Clean ∧ buildExpr raw = .ok e

private theorem valid_of_items {raws : List Json} {es : List Expr}
    (hclean : ∀ raw ∈ raws, (validateExpr r raw).Clean) (hbuilt : buildItems raws = .ok es) :
    ∀ e ∈ es, e.Valid r := by
  intro e he
  obtain ⟨raw, hraw, hbuild⟩ := Related.exists_of_mem_right (buildItems_ok_iff.mp hbuilt) he
  exact ⟨raw, hclean raw hraw, hbuild⟩

private theorem valid_of_fields {raws : List (Text × Json)} {fields : List (Text × Expr)}
    (hclean : ∀ raw ∈ raws, (validateExpr r raw.2).Clean) (hbuilt : buildFields raws = .ok fields) :
    ∀ field ∈ fields, field.2.Valid r := by
  intro field hfield
  obtain ⟨raw, hraw, -, hbuild⟩ :=
    Related.exists_of_mem_right (buildFields_ok_iff.mp hbuilt) hfield
  exact ⟨raw.2, hclean raw hraw, hbuild⟩

/-- What is known of a valid call. -/
theorem Valid.call {f : Name} {args : List Expr} (h : (Expr.call f args).Valid r) :
    ∃ name raws, f = .text name ∧ buildItems raws = .ok args ∧
      (∃ g, r.find? name = some g ∧ g.params.length = args.length) ∧
      (∀ raw ∈ raws, (validateExpr r raw).Clean) ∧
      (name = "getAttr" → (validateAttrPath raws[1]?).Clean) := by
  obtain ⟨raw, hclean, hbuilt⟩ := h
  cases builtFrom_of_buildExpr hbuilt with
  | @call raws name rawArgs _ href hfn hargv hargs =>
  unfold validateExpr at hclean
  simp only [href, hfn] at hclean
  cases name with
  | str name =>
    obtain ⟨found, hfound, hclean⟩ := args_of_clean_validateCall hclean
    cases hargv.symm.trans hfound
    cases rawArgs with
    | arr items =>
      obtain ⟨⟨g, hg, hlength⟩, hitems, hpath⟩ := clean_validateArgs_arr hclean
      have hbuild : buildItems items = .ok args := by
        rw [← hargs, buildArgs]
      refine ⟨name, items, rfl, hbuild, ⟨g, hg, ?_⟩, hitems, hpath⟩
      rw [hlength, (buildItems_ok_iff.mp hbuild).length_eq]
    | _ =>
      unfold validateArgs at hclean
      exact absurd hclean (not_clean_invalid _ _)
  | _ => exact absurd hclean (not_clean_invalid _ _)

private theorem Valid.within (h : e.Valid r) (hsub : sub.Within e) : sub.Valid r := by
  induction hsub with
  | here => exact h
  | item hmem _ ih =>
    obtain ⟨raw, hclean, hbuilt⟩ := h
    cases builtFrom_of_buildExpr hbuilt with
    | list hitems =>
    unfold validateExpr at hclean
    exact ih (valid_of_items (clean_validateItems_iff.mp hclean) hitems _ hmem)
  | field hmem _ ih =>
    obtain ⟨raw, hclean, hbuilt⟩ := h
    cases builtFrom_of_buildExpr hbuilt with
    | record href hfn hfields =>
    unfold validateExpr at hclean
    simp only [href, hfn] at hclean
    exact ih (valid_of_fields (clean_validateFields_iff.mp hclean) hfields _ hmem)
  | argument hmem _ ih =>
    obtain ⟨name, raws, -, hbuilt, -, hclean, -⟩ := h.call
    exact ih (valid_of_items hclean hbuilt _ hmem)

end Expr
namespace Document

private theorem valid_of_condition {raw : Json} {c : Condition}
    (hclean : (validateCondition r raw).Clean)
    (hbuilt : buildCondition raw = .ok c) : c.expr.Valid r := by
  cases raw with
  | obj fields =>
    obtain ⟨-, hguard⟩ := (clean_validateCondition_iff fields).mp hclean
    obtain ⟨_, hfields, hbuilt⟩ := bind_ok_iff.mp hbuilt
    cases hfields
    obtain ⟨e, he, hbuilt⟩ := bind_ok_iff.mp hbuilt
    obtain ⟨name, -, hbuilt⟩ := bind_ok_iff.mp hbuilt
    cases hbuilt
    unfold validateGuard at hguard
    split at hguard
    · exact ⟨_, (regular_validateExpr _).clean_discard_iff.mp hguard, he⟩
    · exact absurd hguard (Inspection.not_clean_defect _ _)
  | _ => cases hbuilt

private theorem valid_of_conditions {index : Nat} {raws : List Json} {conditions : List Condition}
    (hclean : (validateConditions r index raws).Clean)
    (hbuilt : buildConditions raws = .ok conditions) : ∀ c ∈ conditions, c.expr.Valid r := by
  induction raws generalizing index conditions with
  | nil =>
    cases hbuilt
    exact List.forall_mem_nil _
  | cons raw rest ih =>
    rw [validateConditions, ((regular_validateCondition raw).within _).clean_bind_iff fun _ =>
      regular_validateConditions _ rest, (regular_validateCondition raw).clean_within_iff] at hclean
    obtain ⟨c, hc, hbuilt⟩ := bind_ok_iff.mp hbuilt
    obtain ⟨others, hothers, hbuilt⟩ := bind_ok_iff.mp hbuilt
    cases hbuilt
    exact List.forall_mem_cons.mpr ⟨valid_of_condition hclean.1 hc, ih hclean.2 hothers⟩

private theorem valid_of_headers {raws : List (Text × Json)} {headers : List (Text × List Expr)}
    (hclean : (validateHeaders r raws).Clean) (hbuilt : buildHeaders raws = .ok headers) :
    ∀ header ∈ headers, ∀ e ∈ header.2, e.Valid r := by
  induction raws generalizing headers with
  | nil =>
    cases hbuilt
    exact List.forall_mem_nil _
  | cons raw rest ih =>
    obtain ⟨name, values⟩ := raw
    rw [validateHeaders_cons, ((regular_validateHeaderValues _).within _).clean_bind_iff fun _ =>
      regular_validateHeaders rest, (regular_validateHeaderValues _).clean_within_iff] at hclean
    simp only [buildHeaders, bind_ok_iff] at hbuilt
    obtain ⟨found, hfound, es, hes, others, hothers, ⟨⟩⟩ := hbuilt
    refine List.forall_mem_cons.mpr ⟨?_, ih hclean.2 hothers⟩
    cases values with
    | arr items =>
      cases hfound
      have hitems := (regular_validateExpr _).clean_discard_iff.mp hclean.1
      unfold validateExpr at hitems
      exact Expr.valid_of_items (clean_validateItems_iff.mp hitems) hes
    | _ => cases hfound

private theorem keys_of_buildFields {raws : List (Text × Json)} {fields : List (Text × Expr)}
    (h : buildFields raws = .ok fields) : Fields.keys fields = Fields.keys raws :=
  Related.map_eq_map ((buildFields_ok_iff.mp h).imp fun _ _ hfield => hfield.1)

/-- The parts of an endpoint, from the members that describe them. -/
private theorem members_of_buildEndpoint {endpoint : List (Text × Json)} {body : EndpointBody}
    (h : buildEndpoint (.obj endpoint) = .ok body) :
    ∃ url properties headers, Fields.get? "url" endpoint = some url ∧
      buildExpr url = .ok body.url ∧
      (Fields.get? "properties" endpoint).getD (.obj []) = .obj properties ∧
      buildFields properties = .ok body.properties ∧
      (Fields.get? "headers" endpoint).getD (.obj []) = .obj headers ∧
      buildHeaders headers = .ok body.headers := by
  simp only [buildEndpoint, bind_ok_iff] at h
  obtain ⟨_, hfields, url, hurl, e, he, properties, hproperties, built, hbuilt, headers, hheaders,
    values, hvalues, ⟨⟩⟩ := h
  cases hfields
  exact ⟨url, properties, headers, need_ok hurl, he, members_ok hproperties, hbuilt,
    members_ok hheaders, hvalues⟩

private theorem valid_of_endpoint {raw : Json} {body : EndpointBody}
    (hclean : (validateEndpoint r raw).Clean) (hbuilt : buildEndpoint raw = .ok body) :
    body.url.Valid r ∧
    (∀ header ∈ body.headers, ∀ e ∈ header.2, e.Valid r) ∧
    (("ref" : Text) ∉ Fields.keys body.properties → ("fn" : Text) ∉ Fields.keys body.properties →
      ∀ property ∈ body.properties, property.2.Valid r) := by
  cases raw with
  | obj endpoint =>
    obtain ⟨hurl, hproperties, hheaders⟩ := (clean_validateEndpoint_iff endpoint).mp hclean
    obtain ⟨url, properties, headers, hgetUrl, he, hgetProperties, hfields, hgetHeaders, hvalues⟩ :=
      members_of_buildEndpoint hbuilt
    rw [validateUrl, hgetUrl] at hurl
    rw [hgetProperties] at hproperties
    rw [hgetHeaders] at hheaders
    have hexpr := ((regular_validateExpr url).discard.clean_within_iff _).mp hurl
    refine ⟨⟨url, (regular_validateExpr url).clean_discard_iff.mp hexpr, he⟩,
      valid_of_headers hheaders hvalues, fun href hfn => ?_⟩
    rw [keys_of_buildFields hfields, ← Fields.get?_eq_none_iff] at href hfn
    have hentries := (regular_validateExpr _).clean_discard_iff.mp hproperties
    unfold validateExpr at hentries
    simp only [href, hfn] at hentries
    exact Expr.valid_of_fields (clean_validateFields_iff.mp hentries) hfields
  | _ => cases hbuilt

/-- What a rule is built from, given its kind. -/
private theorem body_of_buildRule {path : Text} {fields : List (Text × Json)} {kind : RuleKind}
    {rule : Rule} (hk : ruleKind? ((Fields.get? "type" fields).getD .null) = some kind)
    (h : buildRule path (.obj fields) = .ok rule) :
    ∃ raws head, items ((Fields.get? "conditions" fields).getD (.arr [])) = .ok raws ∧
      buildConditions raws = .ok head.conditions ∧ buildBody path fields kind head = .ok rule := by
  simp only [buildRule, bind_ok_iff] at h
  obtain ⟨raws, hraws, conditions, hconditions, documentation, -, raw, hneed, h⟩ := h
  rw [need_ok hneed, Option.getD_some] at hk
  rw [hk] at h
  exact ⟨raws, ⟨path, conditions, documentation⟩, hraws, hconditions, by cases kind <;> exact h⟩

/-- The rules right below a tree rule come from the first member of that name. -/
private theorem rules_of_children {path : Text} {fields : List (Text × Json)} {rules : List Rule}
    (hclean : (validateChildren r fields).Clean) (hbuilt : buildChildren path fields = .ok rules) :
    ∃ raws, (validateRules r 0 raws).Clean ∧ buildRules path 0 raws = .ok rules := by
  induction fields with
  | nil =>
    rw [buildChildren] at hbuilt
    cases hbuilt
  | cons field rest ih =>
    obtain ⟨key, raw⟩ := field
    rw [validateChildren] at hclean
    rw [buildChildren] at hbuilt
    split at hclean
    · rw [if_pos ‹_›] at hbuilt
      cases raw with
      | arr raws =>
        rw [buildRuleArray] at hbuilt
        rw [validateRuleArray] at hclean
        split at hclean
        · exact absurd hclean (Inspection.not_clean_defect _ _)
        · exact ⟨raws, hclean, hbuilt⟩
      | _ =>
        unfold buildRuleArray at hbuilt
        cases hbuilt
    · rw [if_neg ‹_›] at hbuilt
      exact ih hclean hbuilt

end Document

/-- The places of a rule whose expressions are looked at one by one when a document is validated. -/
inductive Rule.Checked : Rule → Expr → Prop
  | condition {rule : Rule} {c : Condition} : c ∈ rule.conditions → Checked rule c.expr
  | url (head : RuleHead) (body : EndpointBody) : Checked (.endpoint head body) body.url
  | header {head : RuleHead} {body : EndpointBody} {header : Text × List Expr} {e : Expr} :
      header ∈ body.headers → e ∈ header.2 → Checked (.endpoint head body) e
  | property {head : RuleHead} {body : EndpointBody} {property : Text × Expr} :
      ("ref" : Text) ∉ Fields.keys body.properties → ("fn" : Text) ∉ Fields.keys body.properties →
      property ∈ body.properties → Checked (.endpoint head body) property.2
  | message (head : RuleHead) (message : Expr) : Checked (.error head message) message

namespace Rule
variable {rule : Rule} {e : Expr}

/-- A rule is valid if it is built from a datum in which no defect was found. -/
def Valid (r : Registry) (rule : Rule) : Prop :=
  ∃ path raw, (validateRule r raw).Clean ∧ buildRule path raw = .ok rule

private theorem valid_of_rules {path : Text} {index position : Nat} {raws : List Json}
    {rules : List Rule} (hclean : (validateRules r index raws).Clean)
    (hbuilt : buildRules path position raws = .ok rules) : ∀ rule ∈ rules, rule.Valid r := by
  induction raws generalizing index position rules with
  | nil =>
    cases hbuilt
    exact List.forall_mem_nil _
  | cons raw rest ih =>
    rw [validateRules, ((regular_validateRule raw).within _).clean_bind_iff fun _ =>
      regular_validateRules (index + 1) rest, (regular_validateRule raw).clean_within_iff] at hclean
    simp only [buildRules, bind_ok_iff] at hbuilt
    obtain ⟨first, hfirst, others, hothers, ⟨⟩⟩ := hbuilt
    exact List.forall_mem_cons.mpr ⟨⟨_, raw, hclean.1, hfirst⟩, ih hclean.2 hothers⟩

/-- What is known of the parts of a rule that was found valid. -/
def HasValidParts (r : Registry) : Rule → Prop
  | .endpoint _ body => ∃ raw, (validateEndpoint r raw).Clean ∧ buildEndpoint raw = .ok body
  | .error _ message => message.Valid r
  | .tree _ rules => ∀ rule ∈ rules, rule.Valid r

private theorem Valid.parts (h : rule.Valid r) :
    (∀ c ∈ rule.conditions, c.expr.Valid r) ∧ rule.HasValidParts r := by
  obtain ⟨path, raw, hclean, hbuilt⟩ := h
  cases raw with
  | obj fields =>
    cases hk : ruleKind? ((Fields.get? "type" fields).getD .null) with
    | none =>
      unfold validateRule at hclean
      simp only [hk] at hclean
      cases (Inspection.clean_requireKnown_iff _ _ _).mp hclean
    | some kind =>
      obtain ⟨-, hconditions, hbody⟩ := (clean_validateRule_iff hk).mp hclean
      obtain ⟨raws, head, hraws, hhead, hrule⟩ := body_of_buildRule hk hbuilt
      obtain ⟨found, hfound, hguards⟩ := items_of_clean_conditions hconditions
      cases hraws.symm.trans hfound
      have hvalid := valid_of_conditions hguards hhead
      cases kind with
      | endpoint =>
        obtain ⟨endpoint, hneed, hrule⟩ := bind_ok_iff.mp hrule
        obtain ⟨body, hbuild, hrule⟩ := bind_ok_iff.mp hrule
        cases hrule
        have hendpoint := ((regular_validateEndpoint _).clean_within_iff _).mp hbody
        rw [need_ok hneed] at hendpoint
        exact ⟨hvalid, endpoint, hendpoint, hbuild⟩
      | error =>
        obtain ⟨raw, hneed, hrule⟩ := bind_ok_iff.mp hrule
        obtain ⟨message, hbuild, hrule⟩ := bind_ok_iff.mp hrule
        cases hrule
        obtain ⟨found, hget, hmessage⟩ := (clean_validateMessage_iff fields).mp hbody
        cases (need_ok hneed).symm.trans hget
        exact ⟨hvalid, raw, hmessage, hbuild⟩
      | tree =>
        obtain ⟨rules, hchildren, hrule⟩ := bind_ok_iff.mp hrule
        cases hrule
        obtain ⟨raws, hrules, hbuild⟩ := rules_of_children hbody hchildren
        exact ⟨hvalid, valid_of_rules hrules hbuild⟩
  | _ => cases hbuilt

/-- Every checked expression of a valid rule is valid. -/
private theorem Valid.checked (h : rule.Valid r) (he : rule.Checked e) : e.Valid r := by
  obtain ⟨hconditions, hparts⟩ := h.parts
  cases he with
  | condition hc => exact hconditions _ hc
  | url head body =>
    obtain ⟨raw, hclean, hbuilt⟩ := hparts
    exact (valid_of_endpoint hclean hbuilt).1
  | header hheader he =>
    obtain ⟨raw, hclean, hbuilt⟩ := hparts
    exact (valid_of_endpoint hclean hbuilt).2.1 _ hheader _ he
  | property href hfn hproperty =>
    obtain ⟨raw, hclean, hbuilt⟩ := hparts
    exact (valid_of_endpoint hclean hbuilt).2.2 href hfn _ hproperty
  | message head message => exact hparts

end Rule

namespace RuleSet
variable {document : Json} {rs : RuleSet}

private theorem Loaded.rules_valid (h : Loaded r document rs) :
    ∀ rule ∈ rs.rules, rule.Valid r := by
  obtain ⟨fields, _, rules, rfl, -, hrules, -, hbuilt⟩ := build_ok h.built
  obtain ⟨-, -, hclean⟩ := (clean_validateRuleSet_iff fields).mp h.valid
  rw [hrules, Option.getD_some] at hclean
  cases rules with
  | nil => simp [validateTopRules] at hclean
  | cons first others => exact Rule.valid_of_rules hclean hbuilt

private theorem Loaded.valid_below (h : Loaded r document rs) {above : List Condition} {rule : Rule}
    (hrule : rs.root.Below above rule) : rule = rs.root ∨ rule.Valid r := by
  induction hrule with
  | here => exact .inl rfl
  | child _ hmem ih =>
    right
    rcases ih with hroot | hparent
    · cases hroot
      exact h.rules_valid _ hmem
    · exact hparent.parts.2 _ hmem

/-- In a loaded rule tree every checked expression is valid, and so is every expression in it. -/
theorem Loaded.valid_within (h : Loaded r document rs) {above : List Condition} {rule : Rule}
    {e sub : Expr} (hrule : rs.root.Below above rule) (he : rule.Checked e)
    (hsub : sub.Within e) : sub.Valid r := by
  rcases h.valid_below hrule with rfl | hvalid
  · cases he with
    | condition hc => cases hc
  · exact (hvalid.checked he).within hsub

end RuleSet
end EndpointRules
