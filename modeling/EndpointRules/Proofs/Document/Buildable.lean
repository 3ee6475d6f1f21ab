import EndpointRules.Proofs.Document.Loaded
import EndpointRules.Proofs.Template.Printing

/-! A document that was found valid can be built, and all names in what is built can be looked up.
The one place that the validator does not look at entry by entry is an object of properties that has
the form of a reference or a call. -/

namespace EndpointRules

/-! Names that can be looked up. -/

private theorem Expr.itemBreakdown?_eq_none_iff {items : List Expr} :
    itemBreakdown? items = none ↔ ∀ e ∈ items, e.breakdown? = none := by
  induction items with
  | nil => simp [itemBreakdown?]
  | cons e rest ih => simp [itemBreakdown?, Option.or_eq_none_iff, ih]

private theorem Expr.fieldBreakdown?_eq_none_iff {fields : List (Text × Expr)} :
    fieldBreakdown? fields = none ↔ ∀ field ∈ fields, field.2.breakdown? = none := by
  induction fields with
  | nil => simp [fieldBreakdown?]
  | cons field rest ih => simp [fieldBreakdown?, Option.or_eq_none_iff, ih]

private theorem EndpointBody.breakdown?_exprs {body : EndpointBody}
    (hurl : body.url.breakdown? = none)
    (hproperties : Expr.fieldBreakdown? body.properties = none)
    (hheaders : ∀ header ∈ body.headers, Expr.itemBreakdown? header.2 = none) :
    Expr.itemBreakdown? body.exprs = none := by
  rw [Expr.itemBreakdown?_eq_none_iff]
  intro e he
  rcases mem_exprs.mp he with rfl | ⟨property, hproperty, rfl⟩ | ⟨header, hheader, hmem⟩
  · exact hurl
  · exact Expr.fieldBreakdown?_eq_none_iff.mp hproperties property hproperty
  · exact Expr.itemBreakdown?_eq_none_iff.mp (hheaders header hheader) e hmem

namespace Document
open Inspection
variable {α β : Type} {r : Registry}

/-- Something is built, and it is as it should be. -/
def Builds (x : Except BuildError α) (good : α → Prop) : Prop := ∃ a, x = .ok a ∧ good a

namespace Builds
variable {x : Except BuildError α} {f : α → Except BuildError β} {good : α → Prop}
  {best : β → Prop}

theorem pure {a : α} (h : good a) : Builds (.ok a) good := ⟨a, rfl, h⟩

theorem bind (h : Builds x good) (hf : ∀ a, good a → Builds (f a) best) :
    Builds (x >>= f) best := by
  obtain ⟨a, rfl, ha⟩ := h
  exact hf a ha

theorem map {g : α → β} (h : Builds x good) (hg : ∀ a, good a → best (g a)) :
    Builds (x.map g) best := by
  obtain ⟨a, rfl, ha⟩ := h
  exact ⟨g a, rfl, hg a ha⟩

end Builds

/-! Expressions. -/

theorem not_clean_invalid (message : Text) (value : Json) : ¬ (invalid message value).Clean :=
  not_clean_defect_bind message value (regular_pure false : Regular _ fun _ => False)

theorem clean_validateItems_cons {label : Text} {index : Nat} {item : Json} {rest : List Json} :
    (validateItems r label index (item :: rest)).Clean ↔
      (validateExpr r item).Clean ∧ (validateItems r label (index + 1) rest).Clean := by
  rw [validateItems,
    ((honest_validateExpr item).within _).clean_both_iff (honest_validateItems _ _ rest),
    (regular_validateExpr item).clean_within_iff]

theorem clean_validateFields_cons {key : Text} {item : Json} {rest : List (Text × Json)} :
    (validateFields r ((key, item) :: rest)).Clean ↔
      (validateExpr r item).Clean ∧ (validateFields r rest).Clean := by
  rw [validateFields,
    ((honest_validateExpr item).within _).clean_both_iff (honest_validateFields rest),
    (regular_validateExpr item).clean_within_iff]

theorem clean_validateItems_iff {label : Text} {index : Nat} {items : List Json} :
    (validateItems r label index items).Clean ↔ ∀ item ∈ items, (validateExpr r item).Clean := by
  induction items generalizing index with
  | nil =>
    rw [validateItems]
    simp
  | cons item rest ih => rw [clean_validateItems_cons, ih, List.forall_mem_cons]

theorem clean_validateFields_iff {fields : List (Text × Json)} :
    (validateFields r fields).Clean ↔ ∀ field ∈ fields, (validateExpr r field.2).Clean := by
  induction fields with
  | nil =>
    rw [validateFields]
    simp
  | cons field rest ih =>
    obtain ⟨key, item⟩ := field
    rw [clean_validateFields_cons, ih, List.forall_mem_cons]

/-- What validation found of a call: its function is known, and its arguments are valid. -/
theorem clean_validateArgs_arr {name : Text} {whole : Json} {args : List Json}
    (h : (validateArgs r name whole (.arr args)).Clean) :
    (∃ f, r.find? name = some f ∧ f.params.length = args.length) ∧
      (∀ arg ∈ args, (validateExpr r arg).Clean) ∧
      (name = "getAttr" → (validateAttrPath args[1]?).Clean) := by
  unfold validateArgs at h
  split at h
  · exact absurd h (not_clean_invalid _ _)
  · next f hf =>
    split at h
    · exact absurd h (not_clean_invalid _ _)
    · next hlength =>
      rw [(honest_validateItems "argv" 0 args).clean_andThen_iff
        (honest_validatePathAmong args)] at h
      obtain ⟨hitems, hpath⟩ := h
      exact ⟨⟨f, hf, Decidable.not_not.mp hlength⟩, clean_validateItems_iff.mp hitems,
        fun hname => hpath (decide_eq_true hname)⟩

private theorem searchable_of_isIdent {name : Json} (h : isIdent name = true) :
    (Name.ofJson name).breakdown? = none := by
  cases name with
  | str s => rfl
  | _ => cases h

mutual
/-- A valid expression can be built, and the names in it can be looked up. -/
private theorem builds_expr : (e : Json) → (validateExpr r e).Clean →
    Builds (buildExpr e) fun e => e.breakdown? = none
  | .str s, h => by
    unfold validateExpr at h
    split at h
    · next t ht =>
      have hbuild : buildExpr (.str s) = .ok (.template t) := by
        rw [buildExpr, buildTemplate, ht]
        rfl
      exact ⟨_, hbuild, rfl⟩
    · exact absurd h (not_clean_invalid _ _)
    · exact absurd h (not_clean_throw _)
  | .bool b, _ => ⟨.bool b, rfl, rfl⟩
  | .int n, _ => ⟨.int n, rfl, rfl⟩
  | .arr items, h => by
    unfold validateExpr at h
    unfold buildExpr
    exact (builds_items "" 0 items h).map fun _ hitems => hitems
  | .obj fields, h => by
    unfold validateExpr at h
    unfold buildExpr
    cases href : Fields.get? "ref" fields with
    | some name =>
      simp only [href] at h ⊢
      split at h
      · next hname => exact .pure (searchable_of_isIdent hname)
      · exact absurd h (not_clean_invalid _ _)
    | none =>
      simp only [href] at h ⊢
      cases hfn : Fields.get? "fn" fields with
      | some name =>
        simp only [hfn] at h ⊢
        cases name with
        | str name => exact builds_call name _ fields h
        | _ => exact absurd h (not_clean_invalid _ _)
      | none =>
        simp only [hfn] at h ⊢
        exact (builds_fields fields h).map fun _ hfields => hfields
  | .null, h | .float _, h => by
    unfold validateExpr at h
    exact absurd h (not_clean_invalid _ _)

private theorem builds_items : (label : Text) → (index : Nat) → (items : List Json) →
    (validateItems r label index items).Clean →
    Builds (buildItems items) fun items => Expr.itemBreakdown? items = none
  | _, _, [], _ => .pure rfl
  | label, index, item :: rest, h => by
    obtain ⟨hitem, hrest⟩ := clean_validateItems_cons.mp h
    unfold buildItems
    refine (builds_expr item hitem).bind fun e he => ?_
    refine (builds_items label (index + 1) rest hrest).bind fun others hothers => ?_
    exact .pure (by rw [Expr.itemBreakdown?, he, hothers]; rfl)

private theorem builds_fields : (fields : List (Text × Json)) → (validateFields r fields).Clean →
    Builds (buildFields fields) fun fields => Expr.fieldBreakdown? fields = none
  | [], _ => .pure rfl
  | (key, item) :: rest, h => by
    obtain ⟨hitem, hrest⟩ := clean_validateFields_cons.mp h
    unfold buildFields
    refine (builds_expr item hitem).bind fun e he => ?_
    refine (builds_fields rest hrest).bind fun others hothers => ?_
    exact .pure (by rw [Expr.fieldBreakdown?, he, hothers]; rfl)

private theorem builds_call : (name : Text) → (whole : Json) → (fields : List (Text × Json)) →
    (validateCall r name whole fields).Clean →
    Builds (buildCall (.text name) fields) fun e => e.breakdown? = none
  | _, _, [], h => by
    unfold validateCall at h
    exact absurd h (not_clean_invalid _ _)
  | name, whole, (key, args) :: rest, h => by
    unfold validateCall at h
    unfold buildCall
    split at h
    · rw [if_pos ‹_›]
      refine (builds_args name whole args h).map fun built hbuilt => ?_
      rw [Expr.breakdown?, hbuilt]
      rfl
    · rw [if_neg ‹_›]
      exact builds_call name whole rest h

private theorem builds_args : (name : Text) → (whole args : Json) →
    (validateArgs r name whole args).Clean →
    Builds (buildArgs args) fun args => Expr.itemBreakdown? args = none
  | name, whole, .arr args, h => by
    unfold buildArgs
    exact builds_items "argv" 0 args (clean_validateItems_iff.mpr (clean_validateArgs_arr h).2.1)
  | _, _, .null, h | _, _, .bool _, h | _, _, .int _, h | _, _, .float _, h | _, _, .str _, h
  | _, _, .obj _, h => by
    unfold validateArgs at h
    exact absurd h (not_clean_invalid _ _)
end

/-- Whatever has been reported before, the answer about an expression, a call or an attribute path
is that nothing is added to the report, and an expression of which this is the answer can be built.
Only a text in it with too many digits in a row breaks the look off. -/
theorem validateExpr_truthful (r : Registry) :
    (∀ raw : Json, (validateExpr r raw).AnswersTruly raw.Explains ∧
      ∀ d, ((validateExpr r raw).run.run d).1 = .ok true → ∃ e, buildExpr raw = .ok e) ∧
    (∀ name whole fields,
      (validateCall r name whole fields).AnswersTruly (Json.obj fields).Explains) ∧
    ∀ path, (validateAttrPath path).AnswersTruly fun b =>
      ∃ raw, path = some raw ∧ raw.Explains b := by
  refine ⟨fun raw => ⟨(honest_validateExpr raw).answersTruly, fun d hanswer => ?_⟩,
    fun name whole fields => (honest_validateCall name whole fields).answersTruly,
    fun path => (honest_validateAttrPath path).answersTruly⟩
  obtain ⟨e, hbuilt, -⟩ := builds_expr raw ((honest_validateExpr raw).clean_of_answer hanswer)
  exact ⟨e, hbuilt⟩

/-- A call whose last argument is looked at twice, in a list behind a template. -/
def hostOfUrl (path : Text) : Json := .arr [.str "https://\x7bRegion\x7d", .obj [
  ("fn", .str "getAttr"),
  ("argv", .arr [.obj [("fn", .str "parseURL"), ("argv", .arr [.obj [("ref", .str "Url")]])],
    .str path])]]

/-- The report on a condition of which an earlier part was wrong. -/
def reportedBefore : Diagnostics :=
  ⟨["rules[0]", "conditions[1]"], [⟨"version", "Rule set must have a 'version' string", .null⟩]⟩

/-- A path that can be read is no defect and one that cannot be is one, whatever else was wrong. -/
theorem validateExpr_truthful_sample :
    ((validateExpr .standard (hostOfUrl "authority")).run.run reportedBefore).1 = .ok true ∧
    (∃ e, buildExpr (hostOfUrl "authority") = .ok e) ∧
    ((validateExpr .standard (hostOfUrl "a..b")).run.run reportedBefore).1 = .ok false ∧
    ((validateExpr .standard (hostOfUrl "a..b")).run.run reportedBefore).2.errors ≠
      reportedBefore.errors := by
  have hgood : ((validateExpr .standard (hostOfUrl "authority")).run.run reportedBefore).1 =
      .ok true := by
    decide +kernel
  have hbad : ((validateExpr .standard (hostOfUrl "a..b")).run.run reportedBefore).1 =
      .ok false := by
    decide +kernel
  refine ⟨hgood, ((validateExpr_truthful .standard).1 _).2 reportedBefore hgood, hbad, ?_⟩
  intro heq
  obtain ⟨added, ⟨answer, hrun, hanswer⟩ | ⟨b, below, hrun, -⟩⟩ :=
    ((validateExpr_truthful .standard).1 (hostOfUrl "a..b")).1 reportedBefore
  · rw [hrun] at hbad heq
    cases hbad
    exact Bool.false_ne_true (hanswer.mpr (List.append_right_eq_self.mp heq))
  · rw [hrun] at hbad
    cases hbad

/-- A template with a path that cannot be read. -/
@[irreducible]
def longTemplate : Json :=
  .str (Template.print [.placeholder "P" (some AttrPath.longPath)])

theorem validateExpr_longTemplate (r : Registry) :
    ∃ n, digitLimit < n ∧ validateExpr r longTemplate = throw (.longNumeral n) := by
  obtain ⟨n, hn, hread⟩ := AttrPath.read_longPath
  refine ⟨n, hn, ?_⟩
  rw [longTemplate, validateExpr,
    Template.parse_of_unreadable rfl hread Template.not_isBrace_of_longPath]

/-- There is no answer about a part with such a template: nothing is reported, and the look does not
come back from the part. -/
theorem validateExpr_unanswered : ∃ n,
    (within "error" (validateExpr .standard longTemplate)).run.run reportedBefore =
      (.error (.longNumeral n),
        ⟨reportedBefore.place ++ [("error" : Text)], reportedBefore.errors⟩) := by
  obtain ⟨n, -, hthrow⟩ := validateExpr_longTemplate .standard
  rw [hthrow]
  exact ⟨n, rfl⟩

/-! Conditions, headers and endpoints. -/

theorem need_of_get? {key : Text} {fields : List (Text × Json)} {v : Json}
    (h : Fields.get? key fields = some v) : need key fields = .ok v := by
  rw [need, h]

/-- A member that reads as something other than null is there. -/
theorem need_of_getD {key : Text} {fields : List (Text × Json)}
    (h : (Fields.get? key fields).getD .null ≠ .null) :
    need key fields = .ok ((Fields.get? key fields).getD .null) :=
  need_of_get? ((Option.getD_eq_iff.mp rfl).resolve_right fun hnone => h hnone.2.symm)

theorem builds_text {key : Text} {fields : List (Text × Json)}
    (h : ∀ v, Fields.get? key fields = some v → v.isString = true) :
    Builds (text? key fields) fun _ => True := by
  unfold text?
  cases hget : Fields.get? key fields with
  | none => exact .pure trivial
  | some v =>
    have hv := h v hget
    cases v with
    | str s => exact .pure trivial
    | _ => cases hv

theorem isString_of_clean {key label : Text} {fields : List (Text × Json)}
    (h : (validateText key label fields).Clean) :
    ∀ v, Fields.get? key fields = some v → v.isString = true := by
  intro v hget
  rw [validateText, hget, clean_require_iff] at h
  exact h

private theorem isString_of_isIdent {v : Json} (h : isIdent v = true) : v.isString = true := by
  cases v with
  | str s => rfl
  | _ => cases h

private theorem builds_condition {raw : Json} (h : (validateCondition r raw).Clean) :
    Builds (buildCondition raw) fun c => c.expr.breakdown? = none := by
  cases raw with
  | obj fields =>
    obtain ⟨hassign, hguard⟩ := (clean_validateCondition_iff fields).mp h
    have hexpr : (validateExpr r (.obj (Fields.drop "assign" fields))).Clean := by
      unfold validateGuard at hguard
      split at hguard
      · exact (regular_validateExpr _).clean_discard_iff.mp hguard
      · exact absurd hguard (not_clean_defect _ _)
    have hname : ∀ v, Fields.get? "assign" fields = some v → v.isString = true := by
      intro v hget
      rw [validateAssign, hget, clean_require_iff] at hassign
      exact isString_of_isIdent hassign
    exact (builds_expr _ hexpr).bind fun e he =>
      (builds_text hname).bind fun _ _ => .pure he
  | _ => exact absurd h (not_clean_defect _ _)

private theorem builds_conditions {index : Nat} {raws : List Json}
    (h : (validateConditions r index raws).Clean) :
    Builds (buildConditions raws) fun conditions =>
      Expr.itemBreakdown? (conditions.map Condition.expr) = none := by
  induction raws generalizing index with
  | nil => exact .pure rfl
  | cons raw rest ih =>
    rw [validateConditions, ((regular_validateCondition raw).within _).clean_bind_iff fun _ =>
      regular_validateConditions _ rest, (regular_validateCondition raw).clean_within_iff] at h
    unfold buildConditions
    refine (builds_condition h.1).bind fun c hc => (ih h.2).bind fun others hothers => ?_
    exact .pure (by rw [List.map_cons, Expr.itemBreakdown?, hc, hothers]; rfl)

private theorem builds_headers {raws : List (Text × Json)} (h : (validateHeaders r raws).Clean) :
    Builds (buildHeaders raws) fun headers =>
      ∀ header ∈ headers, Expr.itemBreakdown? header.2 = none := by
  induction raws with
  | nil => exact .pure (List.forall_mem_nil _)
  | cons raw rest ih =>
    obtain ⟨name, values⟩ := raw
    rw [validateHeaders_cons, ((regular_validateHeaderValues _).within _).clean_bind_iff fun _ =>
      regular_validateHeaders rest, (regular_validateHeaderValues _).clean_within_iff] at h
    obtain ⟨hfirst, hrest⟩ := h
    cases values with
    | arr items =>
      have hitems : (validateItems r "" 0 items).Clean := by
        have hexpr := (regular_validateExpr _).clean_discard_iff.mp hfirst
        unfold validateExpr at hexpr
        exact hexpr
      obtain ⟨exprs, hbuilt, hexprs⟩ := builds_items "" 0 items hitems
      obtain ⟨others, hothers, hrestNames⟩ := ih hrest
      refine ⟨(name, exprs) :: others, ?_, List.forall_mem_cons.mpr ⟨hexprs, hrestNames⟩⟩
      simp only [buildHeaders, Outcome.bind_ok_iff]
      exact ⟨items, rfl, exprs, hbuilt, others, hothers, rfl⟩
    | _ => exact absurd hfirst (not_clean_defect _ _)

/-- An endpoint rule whose properties have an entry that makes them look like a reference or a call.
Their entries are not looked at one by one. -/
def HasOpenProperties (raw : Json) : Prop :=
  ∃ fields endpoint properties, raw = .obj fields ∧
    ruleKind? ((Fields.get? "type" fields).getD .null) = some .endpoint ∧
    Fields.get? "endpoint" fields = some (.obj endpoint) ∧
    Fields.get? "properties" endpoint = some (.obj properties) ∧
    (Fields.hasKey "ref" properties = true ∨ Fields.hasKey "fn" properties = true)

private theorem builds_properties {properties : List (Text × Json)}
    (hopen : ¬ (Fields.hasKey "ref" properties = true ∨ Fields.hasKey "fn" properties = true))
    (h : (validateProperties r (.obj properties)).Clean) :
    Builds (buildFields properties) fun fields => Expr.fieldBreakdown? fields = none := by
  obtain ⟨href, hfn⟩ := not_or.mp hopen
  have hexpr : (validateExpr r (.obj properties)).Clean :=
    (regular_validateExpr _).clean_discard_iff.mp h
  have href : Fields.get? "ref" properties = none := by simpa [Fields.hasKey] using href
  have hfn : Fields.get? "fn" properties = none := by simpa [Fields.hasKey] using hfn
  unfold validateExpr at hexpr
  simp only [href, hfn] at hexpr
  exact builds_fields properties hexpr

private theorem url_of_clean {endpoint : List (Text × Json)}
    (h : (validateUrl r endpoint).Clean) :
    ∃ url, Fields.get? "url" endpoint = some url ∧ (validateExpr r url).Clean := by
  unfold validateUrl at h
  cases hget : Fields.get? "url" endpoint with
  | none =>
    rw [hget] at h
    exact absurd h (not_clean_defect _ _)
  | some url =>
    rw [hget] at h
    have hexpr := ((regular_validateExpr url).discard.clean_within_iff _).mp h
    exact ⟨url, rfl, (regular_validateExpr url).clean_discard_iff.mp hexpr⟩

private theorem builds_endpoint {endpoint : List (Text × Json)}
    (hopen : ∀ properties, Fields.get? "properties" endpoint = some (.obj properties) →
      ¬ (Fields.hasKey "ref" properties = true ∨ Fields.hasKey "fn" properties = true))
    (h : (validateEndpoint r (.obj endpoint)).Clean) :
    Builds (buildEndpoint (.obj endpoint)) fun body =>
      Expr.itemBreakdown? body.exprs = none := by
  obtain ⟨hurl, hproperties, hheaders⟩ := (clean_validateEndpoint_iff endpoint).mp h
  obtain ⟨url, hgetUrl, hexpr⟩ := url_of_clean hurl
  obtain ⟨e, he, hsearchUrl⟩ := builds_expr url hexpr
  have hentries : ∃ entries, members ((Fields.get? "properties" endpoint).getD (.obj [])) =
      .ok entries ∧ Builds (buildFields entries) fun fields =>
        Expr.fieldBreakdown? fields = none := by
    cases hget : Fields.get? "properties" endpoint with
    | none => exact ⟨[], rfl, .pure rfl⟩
    | some v =>
      rw [hget, Option.getD_some] at hproperties
      cases v with
      | obj entries => exact ⟨entries, rfl, builds_properties (hopen entries hget) hproperties⟩
      | _ => exact absurd hproperties (not_clean_defect _ _)
  have hvalues : ∃ entries, members ((Fields.get? "headers" endpoint).getD (.obj [])) =
      .ok entries ∧ Builds (buildHeaders entries) fun headers =>
        ∀ header ∈ headers, Expr.itemBreakdown? header.2 = none := by
    cases hget : (Fields.get? "headers" endpoint).getD (.obj []) with
    | obj entries =>
      rw [hget] at hheaders
      exact ⟨entries, rfl, builds_headers hheaders⟩
    | _ =>
      rw [hget] at hheaders
      exact absurd hheaders (not_clean_defect _ _)
  obtain ⟨entries, hmembers, properties, hbuilt, hsearch⟩ := hentries
  obtain ⟨valueEntries, hvalueMembers, headers, hbuiltHeaders, hsearchHeaders⟩ := hvalues
  refine ⟨⟨e, properties, headers⟩, ?_,
    EndpointBody.breakdown?_exprs hsearchUrl hsearch hsearchHeaders⟩
  simp only [buildEndpoint, Outcome.bind_ok_iff]
  exact ⟨endpoint, rfl, url, need_of_get? hgetUrl, e, he, entries, hmembers, properties, hbuilt,
    valueEntries, hvalueMembers, headers, hbuiltHeaders, rfl⟩

/-- A rule that stands in a rule, at any depth. Only tree rules have rules below them. -/
inductive RawWithin (inner : Json) : Json → Prop
  | here : RawWithin inner inner
  | child {fields : List (Text × Json)} {rules : List Json} {raw : Json} :
      ruleKind? ((Fields.get? "type" fields).getD .null) = some .tree →
      Fields.get? "rules" fields = some (.arr rules) → raw ∈ rules → RawWithin inner raw →
      RawWithin inner (.obj fields)

/-- No rule in a rule has open properties. -/
def Closed (raw : Json) : Prop := ∀ inner, RawWithin inner raw → ¬ HasOpenProperties inner

theorem items_of_clean_conditions {fields : List (Text × Json)}
    (h : (validateRuleConditions r fields).Clean) :
    ∃ raws, items ((Fields.get? "conditions" fields).getD (.arr [])) = .ok raws ∧
      (validateConditions r 0 raws).Clean := by
  unfold validateRuleConditions at h
  cases hget : (Fields.get? "conditions" fields).getD (.arr []) with
  | arr raws =>
    rw [hget] at h
    exact ⟨raws, rfl, h⟩
  | _ =>
    rw [hget] at h
    exact absurd h (not_clean_within_defect _ _ _)

/-- What a rule of a kind has besides its head, as it is built. -/
def buildBody (path : Text) (fields : List (Text × Json)) (kind : RuleKind)
    (head : RuleHead) : Except BuildError Rule :=
  match kind with
  | .endpoint => do return .endpoint head (← buildEndpoint (← need "endpoint" fields))
  | .error => do return .error head (← buildExpr (← need "error" fields))
  | .tree => do return .tree head (← buildChildren path fields)

private theorem endpoint_of_clean {fields : List (Text × Json)}
    (h : (validateRuleBody r .endpoint fields).Clean) :
    ∃ endpoint, Fields.get? "endpoint" fields = some (.obj endpoint) ∧
      (validateEndpoint r (.obj endpoint)).Clean := by
  have hclean := ((regular_validateEndpoint _).clean_within_iff _).mp h
  cases hget : Fields.get? "endpoint" fields with
  | none =>
    rw [hget] at hclean
    exact absurd hclean (not_clean_defect _ _)
  | some raw =>
    rw [hget, Option.getD_some] at hclean
    cases raw with
    | obj endpoint => exact ⟨endpoint, rfl, hclean⟩
    | _ => exact absurd hclean (not_clean_defect _ _)

/-- What a rule has besides its head can be built if the rules below it can. -/
private theorem builds_body {path : Text} {fields : List (Text × Json)} {kind : RuleKind}
    (hchildren : kind = .tree → (validateChildren r fields).Clean →
      Builds (buildChildren path fields) fun rules => Rule.anyBreakdown? rules = none)
    (hopen : ¬ HasOpenProperties (.obj fields))
    (hk : ruleKind? ((Fields.get? "type" fields).getD .null) = some kind)
    (h : (validateRuleBody r kind fields).Clean) (head : RuleHead)
    (hhead : Expr.itemBreakdown? (head.conditions.map Condition.expr) = none) :
    Builds (buildBody path fields kind head) fun rule => rule.breakdown? = none := by
  unfold buildBody
  cases kind with
  | endpoint =>
    obtain ⟨endpoint, hget, hclean⟩ := endpoint_of_clean h
    have hproperties (properties : List (Text × Json))
        (hget' : Fields.get? "properties" endpoint = some (.obj properties)) :
        ¬ (Fields.hasKey "ref" properties = true ∨ Fields.hasKey "fn" properties = true) :=
      fun hkey => hopen ⟨fields, endpoint, properties, rfl, hk, hget, hget', hkey⟩
    rw [need_of_get? hget]
    refine (builds_endpoint hproperties hclean).bind fun body hsearch => .pure ?_
    rw [Rule.breakdown?, hhead, hsearch]
    rfl
  | error =>
    obtain ⟨message, hget, hclean⟩ := (clean_validateMessage_iff fields).mp h
    rw [need_of_get? hget]
    refine (builds_expr message hclean).bind fun e hsearch => .pure ?_
    rw [Rule.breakdown?, hhead, hsearch]
    rfl
  | tree =>
    refine (hchildren rfl h).bind fun rules hsearch => .pure ?_
    rw [Rule.breakdown?, hhead, hsearch]
    rfl

/-- A rule can be built if the rules below it can. -/
private theorem builds_rule_obj {path : Text} {fields : List (Text × Json)}
    (hchildren : ruleKind? ((Fields.get? "type" fields).getD .null) = some .tree →
      (validateChildren r fields).Clean →
      Builds (buildChildren path fields) fun rules => Rule.anyBreakdown? rules = none)
    (hopen : ¬ HasOpenProperties (.obj fields)) (h : (validateRule r (.obj fields)).Clean) :
    Builds (buildRule path (.obj fields)) fun rule => rule.breakdown? = none := by
  cases hk : ruleKind? ((Fields.get? "type" fields).getD .null) with
  | none =>
    unfold validateRule at h
    simp only [hk] at h
    cases (clean_requireKnown_iff _ _ _).mp h
  | some kind =>
    obtain ⟨htext, hconditions, hbody⟩ := (clean_validateRule_iff hk).mp h
    obtain ⟨raws, hraws, hclean⟩ := items_of_clean_conditions hconditions
    obtain ⟨conditions, hbuilt, hsearch⟩ := builds_conditions hclean
    obtain ⟨documentation, hdocumentation, -⟩ := builds_text (isString_of_clean htext)
    have hneed : need "type" fields = .ok ((Fields.get? "type" fields).getD .null) := by
      apply need_of_getD
      intro hnull
      rw [hnull] at hk
      cases hk
    have hbuild (rule : Rule) (h : buildBody path fields kind ⟨path, conditions, documentation⟩ =
        .ok rule) : buildRule path (.obj fields) = .ok rule := by
      simp only [buildRule, Outcome.bind_ok_iff]
      refine ⟨raws, hraws, conditions, hbuilt, documentation, hdocumentation, _, hneed, ?_⟩
      rw [hk]
      cases kind <;> exact h
    obtain ⟨rule, hrule, hnames⟩ := builds_body (fun heq => hchildren (heq ▸ hk)) hopen hk hbody
      ⟨path, conditions, documentation⟩ hsearch
    exact ⟨rule, hbuild rule hrule, hnames⟩

mutual
/-- A valid rule without open properties can be built, and all names in it can be looked up. -/
private theorem builds_rule :
    (path : Text) → (raw : Json) → (validateRule r raw).Clean → Closed raw →
    Builds (buildRule path raw) fun rule => rule.breakdown? = none
  | path, .obj fields, h, hclosed =>
    builds_rule_obj
      (fun hk hclean => builds_children path fields hclean fun _ hget raw hraw inner hinner =>
        hclosed inner (.child hk hget hraw hinner))
      (hclosed _ .here) h
  | _, .null, h, _ | _, .bool _, h, _ | _, .int _, h, _ | _, .float _, h, _ | _, .str _, h, _
  | _, .arr _, h, _ => by
    unfold validateRule at h
    exact absurd h (not_clean_defect _ _)

private theorem builds_children : (path : Text) → (fields : List (Text × Json)) →
    (validateChildren r fields).Clean →
    (∀ rules, Fields.get? "rules" fields = some (.arr rules) → ∀ raw ∈ rules, Closed raw) →
    Builds (buildChildren path fields) fun rules => Rule.anyBreakdown? rules = none
  | _, [], h, _ => by
    unfold validateChildren at h
    exact absurd h (not_clean_defect _ _)
  | path, (key, raw) :: rest, h, hclosed => by
    unfold validateChildren at h
    unfold buildChildren
    unfold Fields.get? at hclosed
    split at h
    · rw [if_pos ‹_›] at hclosed ⊢
      exact builds_ruleArray path raw h fun rules hraw =>
        hclosed rules (congrArg some hraw)
    · rw [if_neg ‹_›] at hclosed ⊢
      exact builds_children path rest h hclosed

private theorem builds_ruleArray : (path : Text) → (raw : Json) → (validateRuleArray r raw).Clean →
    (∀ rules, raw = .arr rules → ∀ raw ∈ rules, Closed raw) →
    Builds (buildRuleArray path raw) fun rules => Rule.anyBreakdown? rules = none
  | path, .arr raws, h, hclosed => by
    unfold validateRuleArray at h
    unfold buildRuleArray
    split at h
    · exact absurd h (not_clean_defect _ _)
    · exact builds_rules path 0 0 raws h (hclosed raws rfl)
  | _, .null, h, _ | _, .bool _, h, _ | _, .int _, h, _ | _, .float _, h, _ | _, .str _, h, _
  | _, .obj _, h, _ => by
    unfold validateRuleArray at h
    exact absurd h (not_clean_defect _ _)

theorem builds_rules : (path : Text) → (index position : Nat) → (raws : List Json) →
    (validateRules r index raws).Clean → (∀ raw ∈ raws, Closed raw) →
    Builds (buildRules path position raws) fun rules => Rule.anyBreakdown? rules = none
  | _, _, _, [], _, _ => .pure rfl
  | path, index, position, raw :: rest, h, hclosed => by
    rw [validateRules, ((regular_validateRule raw).within _).clean_bind_iff fun _ =>
      regular_validateRules (index + 1) rest, (regular_validateRule raw).clean_within_iff] at h
    obtain ⟨hfirst, hrest⟩ := List.forall_mem_cons.mp hclosed
    unfold buildRules
    refine (builds_rule _ raw h.1 hfirst).bind fun rule hrule => ?_
    have hothers := builds_rules path (index + 1) (position + 1) rest h.2 hrest
    refine hothers.bind fun others hnames => .pure ?_
    rw [Rule.anyBreakdown?, hrule, hnames]
    rfl
end

end Document
end EndpointRules
