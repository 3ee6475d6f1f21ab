import EndpointRules.Proofs.Findings
import EndpointRules.RuleSet

/-! What the static checks accept. An expression fits a scope when its names are in the scope and
its calls fit the declarations of their functions; a rule fits when its conditions and everything
below it do, each in the scope that the conditions before it leave. -/

namespace EndpointRules
variable {r : Registry} {scope : TyEnv}

namespace Expr

mutual
/-- Every name is in scope, and every call fits the declaration of its function. -/
def Fits (r : Registry) (scope : TyEnv) : Expr → Prop
  | .bool _ | .int _ => True
  | .template t => ∀ name ∈ t.references, (scope.find? name).isSome
  | .list items => ItemsFit r scope items
  | .record fields => FieldsFit r scope fields
  | .ref name => (scope.findName? name).isSome
  | .call f args =>
    ItemsFit r scope args ∧ ∃ type, r.checkCall f (itemTypes r scope args) = .ok type

def ItemsFit (r : Registry) (scope : TyEnv) : List Expr → Prop
  | [] => True
  | e :: rest => e.Fits r scope ∧ ItemsFit r scope rest

def FieldsFit (r : Registry) (scope : TyEnv) : List (Text × Expr) → Prop
  | [] => True
  | (_, e) :: rest => e.Fits r scope ∧ FieldsFit r scope rest
end

theorem itemsFit_iff (items : List Expr) :
    ItemsFit r scope items ↔ ∀ e ∈ items, e.Fits r scope := by
  induction items with
  | nil => simp [ItemsFit]
  | cons e rest ih => simp [ItemsFit, ih]

theorem fieldsFit_iff (fields : List (Text × Expr)) :
    FieldsFit r scope fields ↔ ∀ field ∈ fields, field.2.Fits r scope := by
  induction fields with
  | nil => simp [FieldsFit]
  | cons field rest ih => simp [FieldsFit, ih]

theorem itemTypes_eq_map (items : List Expr) :
    itemTypes r scope items = items.map (ty r scope) := by
  induction items with
  | nil => rfl
  | cons e rest ih => rw [itemTypes, ih, List.map_cons]

end Expr

/-- The scope behind a condition: its name is added unless it is taken. -/
def TyEnv.pass (r : Registry) (scope : TyEnv) (c : Condition) : TyEnv :=
  match c.assign with
  | none => scope
  | some name => if scope.contains name then scope else scope.extend name (c.expr.ty r scope)

/-- The scope behind conditions that follow one another. -/
def TyEnv.after (r : Registry) (scope : TyEnv) (conditions : List Condition) : TyEnv :=
  conditions.foldl (TyEnv.pass r) scope

/-- A condition fits the scope before it, and a name that it assigns is new there. -/
def Condition.Fits (r : Registry) (scope : TyEnv) (c : Condition) : Prop :=
  c.expr.Fits r scope ∧ ∀ name, c.assign = some name → scope.contains name = false

/-- Each condition fits the scope that the ones before it leave. -/
def ConditionsFit (r : Registry) (scope : TyEnv) : List Condition → Prop
  | [] => True
  | c :: rest => c.Fits r scope ∧ ConditionsFit r (scope.pass r c) rest

def EndpointBody.Fits (r : Registry) (scope : TyEnv) (body : EndpointBody) : Prop :=
  ∀ e ∈ body.exprs, e.Fits r scope

namespace Rule

mutual
/-- The conditions of a rule fit, and what stands below them fits the scope that they leave. -/
def Fits (r : Registry) (scope : TyEnv) : Rule → Prop
  | .endpoint head body =>
    ConditionsFit r scope head.conditions ∧ body.Fits r (scope.after r head.conditions)
  | .error head message =>
    ConditionsFit r scope head.conditions ∧ message.Fits r (scope.after r head.conditions)
  | .tree head rules =>
    ConditionsFit r scope head.conditions ∧ AllFit r (scope.after r head.conditions) rules

def AllFit (r : Registry) (scope : TyEnv) : List Rule → Prop
  | [] => True
  | rule :: rest => rule.Fits r scope ∧ AllFit r scope rest
end

theorem Fits.conditions_fit {rule : Rule} (h : rule.Fits r scope) :
    ConditionsFit r scope rule.conditions := by
  cases rule with
  | endpoint head body => exact h.1
  | error head message => exact h.1
  | tree head rules => exact h.1

theorem allFit_iff (rules : List Rule) :
    AllFit r scope rules ↔ ∀ rule ∈ rules, rule.Fits r scope := by
  induction rules with
  | nil => simp [AllFit]
  | cons rule rest ih => simp [AllFit, ih]

end Rule

/-! Names in scope. -/

/-- The names that conditions assign, in order. -/
def assigned (conditions : List Condition) : List Text := conditions.filterMap Condition.assign

theorem mem_assigned_cons {c : Condition} {rest : List Condition} {name : Text} :
    name ∈ assigned (c :: rest) ↔ c.assign = some name ∨ name ∈ assigned rest := by
  simp [assigned, List.mem_filterMap]

theorem mem_assigned_append {before rest : List Condition} {name : Text} :
    name ∈ assigned (before ++ rest) ↔ name ∈ assigned before ∨ name ∈ assigned rest := by
  rw [assigned, List.filterMap_append, List.mem_append]
  rfl

namespace TyEnv

theorem after_append (conditions more : List Condition) :
    scope.after r (conditions ++ more) = (scope.after r conditions).after r more :=
  List.foldl_append

theorem find?_ofParameters (parameters : List Parameter) (name : Text) :
    (ofParameters parameters).find? name =
      (findParameter? parameters name).map Parameter.staticType := by
  induction parameters with
  | nil => rfl
  | cons p rest ih =>
    have hput : (ofParameters (p :: rest)).find? name =
        if p.name = name then some p.staticType else (ofParameters rest).find? name := rfl
    rw [hput, ih]
    by_cases hname : p.name = name
    · simp [findParameter?, hname]
    · simp [findParameter?, hname]

theorem isSome_find?_ofParameters {parameters : List Parameter} {name : Text} :
    ((ofParameters parameters).find? name).isSome ↔ name ∈ parameters.map Parameter.name := by
  rw [find?_ofParameters, Option.isSome_map, findParameter?, List.find?_isSome, List.mem_map]
  simp

/-- What is in scope before a condition is found behind it as before. -/
private theorem find?_pass_of_some {name : Text} {type : Ty} (h : scope.find? name = some type)
    (c : Condition) : (scope.pass r c).find? name = some type := by
  unfold pass
  split
  · exact h
  · next assigned _ =>
    split
    · exact h
    · next hnew =>
      have hne : assigned ≠ name := by
        rintro rfl
        rw [contains, Fields.hasKey] at hnew
        rw [find?] at h
        exact hnew (by rw [h]; rfl)
      rw [find?_extend, if_neg hne]
      exact h

theorem find?_after_of_some {name : Text} {type : Ty} (h : scope.find? name = some type)
    (conditions : List Condition) : (scope.after r conditions).find? name = some type := by
  induction conditions generalizing scope with
  | nil => exact h
  | cons c rest ih => exact ih (find?_pass_of_some h c)

theorem isSome_find?_pass {name : Text} (c : Condition) :
    ((scope.pass r c).find? name).isSome ↔ (scope.find? name).isSome ∨ c.assign = some name := by
  unfold pass
  split
  · next hnone => simp [hnone]
  · next other hassign =>
    rw [hassign, Option.some.injEq]
    split
    · next htaken =>
      constructor
      · exact .inl
      · rintro (hfound | rfl)
        · exact hfound
        · exact htaken
    · rw [find?_extend]
      by_cases hname : other = name <;> simp [hname]

/-- A name is in scope behind conditions when it was before or when one of them assigns it. -/
theorem isSome_find?_after {name : Text} (conditions : List Condition) :
    ((scope.after r conditions).find? name).isSome ↔
      (scope.find? name).isSome ∨ name ∈ assigned conditions := by
  induction conditions generalizing scope with
  | nil => simp [after, assigned]
  | cons c rest ih =>
    have hcons : scope.after r (c :: rest) = (scope.pass r c).after r rest := rfl
    rw [hcons, ih, isSome_find?_pass, mem_assigned_cons, or_assoc]

/-- What is found behind conditions was there before, or it is the type of what a condition
assigns. -/
theorem find?_after_cases {name : Text} {type : Ty} {conditions : List Condition}
    (h : (scope.after r conditions).find? name = some type) :
    scope.find? name = some type ∨ ∃ before c rest, conditions = before ++ c :: rest ∧
      c.assign = some name ∧ c.expr.ty r (scope.after r before) = type := by
  induction conditions generalizing scope with
  | nil => exact .inl h
  | cons c rest ih =>
    rcases ih h with hpass | ⟨before, c', rest', rfl, hassign, htype⟩
    · rw [pass] at hpass
      split at hpass
      · exact .inl hpass
      · next other hassign =>
        split at hpass
        · exact .inl hpass
        · rw [find?_extend] at hpass
          split at hpass
          · next hname =>
            exact .inr ⟨[], c, rest, rfl, hname ▸ hassign, Option.some.inj hpass⟩
          · exact .inl hpass
    · exact .inr ⟨c :: before, c', rest', rfl, hassign, htype⟩

end TyEnv

/-! Conditions. -/

theorem conditionsFit_append {before rest : List Condition} :
    ConditionsFit r scope (before ++ rest) ↔
      ConditionsFit r scope before ∧ ConditionsFit r (scope.after r before) rest := by
  induction before generalizing scope with
  | nil => simp [ConditionsFit, TyEnv.after]
  | cons c before ih =>
    rw [List.cons_append, ConditionsFit, ConditionsFit, ih, and_assoc]
    rfl

/-- An assigned name that is new is found with the type of what it was assigned. -/
theorem ConditionsFit.find?_assigned {before rest : List Condition} {c : Condition} {name : Text}
    (h : ConditionsFit r scope (before ++ c :: rest)) (hassign : c.assign = some name) :
    (scope.after r (before ++ c :: rest)).find? name =
      some (c.expr.ty r (scope.after r before)) := by
  obtain ⟨-, hc, -⟩ := conditionsFit_append.mp h
  have hpass : ((scope.after r before).pass r c).find? name =
      some (c.expr.ty r (scope.after r before)) := by
    rw [TyEnv.pass, hassign]
    simp only [hc.2 name hassign, Bool.false_eq_true, if_false]
    rw [TyEnv.find?_extend, if_pos rfl]
  rw [TyEnv.after_append]
  exact TyEnv.find?_after_of_some hpass rest

/-! Expressions. -/

private theorem mem_insertName (name other : Text) (names : List Text) :
    other ∈ insertName name names ↔ other = name ∨ other ∈ names := by
  induction names with
  | nil => simp [insertName]
  | cons first rest ih =>
    unfold insertName
    split
    · next hname => simp [hname]
    · split
      · simp
      · simp only [List.mem_cons, ih]
        exact or_left_comm

/-- Putting names in order loses none and adds none. -/
@[simp] theorem mem_orderedNames (name : Text) (names : List Text) :
    name ∈ orderedNames names ↔ name ∈ names := by
  induction names with
  | nil => simp [orderedNames]
  | cons first rest ih =>
    rw [orderedNames, List.foldr_cons, mem_insertName, List.mem_cons]
    exact or_congr_right ih

namespace Expr

@[simp] theorem regular_checkName (name : Name) : (checkName scope name).Regular :=
  Report.regular_require _ _ _

@[simp] theorem regular_checkNames (names : List Text) : (checkNames scope names).Regular := by
  induction names with
  | nil => exact Report.regular_pure ()
  | cons name rest ih => exact (regular_checkName _).bind fun _ => ih

mutual
@[simp] theorem regular_check : (e : Expr) → (e.check r scope).Regular
  | .bool _ | .int _ => Report.regular_pure ()
  | .template t => regular_checkNames _
  | .list items => regular_checkItems items
  | .record fields => regular_checkFields fields
  | .ref name => regular_checkName name
  | .call f args => by
    rw [check]
    refine (regular_checkArgs 0 args).bind fun _ => ?_
    split
    · exact Report.regular_pure ()
    · exact Report.regular_defect _ _

private theorem regular_checkItems : (items : List Expr) → (checkItems r scope items).Regular
  | [] => Report.regular_pure ()
  | e :: rest => (regular_check e).bind fun _ => regular_checkItems rest

private theorem regular_checkFields :
    (fields : List (Text × Expr)) → (checkFields r scope fields).Regular
  | [] => Report.regular_pure ()
  | (_, e) :: rest => (regular_check e).bind fun _ => regular_checkFields rest

private theorem regular_checkArgs : (index : Nat) → (args : List Expr) →
    (checkArgs r scope index args).Regular
  | _, [] => Report.regular_pure ()
  | index, e :: rest =>
    ((regular_check e).within _).bind fun _ => regular_checkArgs (index + 1) rest
end

private theorem clean_checkNames_iff (names : List Text) :
    (checkNames scope names).Clean ↔ ∀ name ∈ names, (scope.find? name).isSome := by
  induction names with
  | nil => simp [checkNames]
  | cons name rest ih =>
    rw [checkNames, (regular_checkName _).clean_bind_iff fun _ => regular_checkNames rest, ih]
    simp [checkName, TyEnv.findName?]

mutual
/-- The check of an expression reports nothing exactly when the expression fits. -/
private theorem clean_check_iff : (e : Expr) → ((e.check r scope).Clean ↔ e.Fits r scope)
  | .bool _ | .int _ => by simp [check, Fits]
  | .template t => by simp [check, Fits, clean_checkNames_iff]
  | .list items => by rw [check, Fits, clean_checkItems_iff items]
  | .record fields => by rw [check, Fits, clean_checkFields_iff fields]
  | .ref name => by simp [check, checkName, Fits]
  | .call f args => by
    rw [check, Fits, (regular_checkArgs 0 args).clean_bind_iff, clean_checkArgs_iff 0 args]
    · apply and_congr_right
      intro _
      cases r.checkCall f (itemTypes r scope args) <;> simp
    · intro _
      split
      · exact Report.regular_pure ()
      · exact Report.regular_defect _ _

private theorem clean_checkItems_iff : (items : List Expr) →
    ((checkItems r scope items).Clean ↔ ItemsFit r scope items)
  | [] => by simp [checkItems, ItemsFit]
  | e :: rest => by
    rw [checkItems, ItemsFit, (regular_check e).clean_bind_iff fun _ => regular_checkItems rest,
      clean_check_iff e, clean_checkItems_iff rest]

private theorem clean_checkFields_iff : (fields : List (Text × Expr)) →
    ((checkFields r scope fields).Clean ↔ FieldsFit r scope fields)
  | [] => by simp [checkFields, FieldsFit]
  | (_, e) :: rest => by
    rw [checkFields, FieldsFit, (regular_check e).clean_bind_iff fun _ => regular_checkFields rest,
      clean_check_iff e, clean_checkFields_iff rest]

private theorem clean_checkArgs_iff : (index : Nat) → (args : List Expr) →
    ((checkArgs r scope index args).Clean ↔ ItemsFit r scope args)
  | _, [] => by simp [checkArgs, ItemsFit]
  | index, e :: rest => by
    rw [checkArgs, ItemsFit,
      ((regular_check e).within _).clean_bind_iff fun _ => regular_checkArgs (index + 1) rest,
      (regular_check e).clean_within_iff, clean_check_iff e, clean_checkArgs_iff (index + 1) rest]
end

end Expr

/-! Conditions and rules. -/

namespace EndpointBody

private theorem regular_checkProperties (properties : List (Text × Expr)) :
    (checkProperties r scope properties).Regular := by
  induction properties with
  | nil => exact Report.regular_pure ()
  | cons property rest ih => exact ((Expr.regular_check _).within _).bind fun _ => ih

private theorem regular_checkValues (name : Text) (index : Nat) (values : List Expr) :
    (checkValues r scope name index values).Regular := by
  induction values generalizing index with
  | nil => exact Report.regular_pure ()
  | cons e rest ih => exact ((Expr.regular_check e).within _).bind fun _ => ih (index + 1)

private theorem regular_checkHeaders (headers : List (Text × List Expr)) :
    (checkHeaders r scope headers).Regular := by
  induction headers with
  | nil => exact Report.regular_pure ()
  | cons header rest ih => exact (regular_checkValues _ _ _).bind fun _ => ih

private theorem regular_check (body : EndpointBody) : (body.check r scope).Regular :=
  ((Expr.regular_check _).within _).bind fun _ =>
    (regular_checkProperties _).bind fun _ => regular_checkHeaders _

private theorem clean_checkProperties_iff (properties : List (Text × Expr)) :
    (checkProperties r scope properties).Clean ↔
      ∀ property ∈ properties, property.2.Fits r scope := by
  induction properties with
  | nil => simp [checkProperties]
  | cons property rest ih =>
    rw [checkProperties, ((Expr.regular_check property.2).within _).clean_bind_iff fun _ =>
      regular_checkProperties rest, ih]
    simp [Expr.clean_check_iff]

private theorem clean_checkValues_iff (name : Text) (index : Nat) (values : List Expr) :
    (checkValues r scope name index values).Clean ↔ ∀ e ∈ values, e.Fits r scope := by
  induction values generalizing index with
  | nil => simp [checkValues]
  | cons e rest ih =>
    rw [checkValues, ((Expr.regular_check e).within _).clean_bind_iff fun _ =>
      regular_checkValues name (index + 1) rest, ih]
    simp [Expr.clean_check_iff]

private theorem clean_checkHeaders_iff (headers : List (Text × List Expr)) :
    (checkHeaders r scope headers).Clean ↔
      ∀ header ∈ headers, ∀ e ∈ header.2, e.Fits r scope := by
  induction headers with
  | nil => simp [checkHeaders]
  | cons header rest ih =>
    rw [checkHeaders, (regular_checkValues header.1 0 header.2).clean_bind_iff fun _ =>
      regular_checkHeaders rest, ih, clean_checkValues_iff]
    simp

private theorem clean_check_iff (body : EndpointBody) :
    (body.check r scope).Clean ↔ body.Fits r scope := by
  rw [check, ((Expr.regular_check _).within _).clean_bind_iff fun _ =>
      (regular_checkProperties _).bind fun _ => regular_checkHeaders _,
    (regular_checkProperties _).clean_bind_iff fun _ => regular_checkHeaders _,
    clean_checkProperties_iff, clean_checkHeaders_iff, (Expr.regular_check _).clean_within_iff,
    Expr.clean_check_iff]
  simp only [Fits, exprs, List.forall_mem_append, List.forall_mem_cons, List.forall_mem_map,
    List.forall_mem_flatMap, and_assoc]

end EndpointBody

private def nameValue (r : Registry) (scope : TyEnv) (c : Condition) : Report TyEnv :=
  match c.assign with
  | none => return scope
  | some name =>
    if scope.contains name then do
      Report.defect ("Assignment to '" ++ name ++ "' shadows a name already in scope") (.str name)
      return scope
    else return scope.extend name (c.expr.ty r scope)

private def checkCondition (r : Registry) (scope : TyEnv) (c : Condition) : Report TyEnv :=
  c.expr.check r scope >>= fun _ => nameValue r scope c

private theorem checkConditions_cons (index : Nat) (c : Condition) (rest : List Condition) :
    checkConditions r scope index (c :: rest) =
      (Report.within (Text.indexed "conditions" index) (checkCondition r scope c) >>=
        fun extended =>
        checkConditions r extended (index + 1) rest) := rfl

private theorem regular_nameValue (c : Condition) : (nameValue r scope c).Regular := by
  unfold nameValue
  split
  · exact Report.regular_pure _
  · split
    · exact (Report.regular_defect _ _).bind fun _ => Report.regular_pure _
    · exact Report.regular_pure _

private theorem answer_nameValue (c : Condition) :
    (nameValue r scope c).answer = scope.pass r c := by
  unfold nameValue TyEnv.pass
  split
  · rfl
  · split <;> rfl

private theorem clean_nameValue_iff (c : Condition) :
    (nameValue r scope c).Clean ↔ ∀ name, c.assign = some name → scope.contains name = false := by
  unfold nameValue
  split
  · simp_all
  · split
    · simp_all
    · simp_all

private theorem regular_checkCondition (c : Condition) : (checkCondition r scope c).Regular :=
  (Expr.regular_check c.expr).bind fun _ => regular_nameValue c

private theorem answer_checkCondition (c : Condition) :
    (checkCondition r scope c).answer = scope.pass r c := by
  rw [checkCondition, (Expr.regular_check c.expr).answer_bind fun _ => regular_nameValue c,
    answer_nameValue]

private theorem clean_checkCondition_iff (c : Condition) :
    (checkCondition r scope c).Clean ↔ c.Fits r scope := by
  rw [checkCondition, (Expr.regular_check c.expr).clean_bind_iff fun _ => regular_nameValue c,
    Expr.clean_check_iff, clean_nameValue_iff, Condition.Fits]

private theorem regular_checkConditions (index : Nat) (conditions : List Condition) :
    (checkConditions r scope index conditions).Regular := by
  induction conditions generalizing index scope with
  | nil => exact Report.regular_pure scope
  | cons c rest ih =>
    rw [checkConditions_cons]
    exact ((regular_checkCondition c).within _).bind fun _ => ih (index + 1)

/-- The static check goes on in the scope that the conditions leave. -/
private theorem answer_checkConditions (index : Nat) (conditions : List Condition) :
    (checkConditions r scope index conditions).answer = scope.after r conditions := by
  induction conditions generalizing index scope with
  | nil => rfl
  | cons c rest ih =>
    rw [checkConditions_cons, ((regular_checkCondition c).within _).answer_bind fun _ =>
      regular_checkConditions (index + 1) rest, (regular_checkCondition c).answer_within,
      answer_checkCondition, ih]
    rfl

private theorem clean_checkConditions_iff (index : Nat) (conditions : List Condition) :
    (checkConditions r scope index conditions).Clean ↔ ConditionsFit r scope conditions := by
  induction conditions generalizing index scope with
  | nil => simp [checkConditions, ConditionsFit]
  | cons c rest ih =>
    rw [checkConditions_cons, ((regular_checkCondition c).within _).clean_bind_iff fun _ =>
      regular_checkConditions (index + 1) rest, (regular_checkCondition c).answer_within,
      (regular_checkCondition c).clean_within_iff, clean_checkCondition_iff, answer_checkCondition,
      ih, ConditionsFit]

namespace Rule

mutual
theorem regular_check : (scope : TyEnv) → (rule : Rule) → (rule.check r scope).Regular
  | _, .endpoint _ body => (regular_checkConditions _ _).bind fun _ =>
    (EndpointBody.regular_check body).within _
  | _, .error _ message => (regular_checkConditions _ _).bind fun _ =>
    (Expr.regular_check message).within _
  | _, .tree _ rules =>
    (regular_checkConditions _ _).bind fun inner => regular_checkRules inner 0 rules

private theorem regular_checkRules : (scope : TyEnv) → (index : Nat) → (rules : List Rule) →
    (checkRules r scope index rules).Regular
  | _, _, [] => Report.regular_pure ()
  | scope, index, rule :: rest => ((regular_check scope rule).within _).bind fun _ =>
    regular_checkRules scope (index + 1) rest
end

mutual
/-- The check of a rule reports nothing exactly when the rule fits. -/
theorem clean_check_iff : (scope : TyEnv) → (rule : Rule) →
    ((rule.check r scope).Clean ↔ rule.Fits r scope)
  | scope, .endpoint head body => by
    rw [check, Fits, (regular_checkConditions 0 head.conditions).clean_bind_iff fun _ =>
      (EndpointBody.regular_check body).within _, clean_checkConditions_iff, answer_checkConditions,
      (EndpointBody.regular_check body).clean_within_iff, EndpointBody.clean_check_iff]
  | scope, .error head message => by
    rw [check, Fits, (regular_checkConditions 0 head.conditions).clean_bind_iff fun _ =>
      (Expr.regular_check message).within _, clean_checkConditions_iff, answer_checkConditions,
      (Expr.regular_check message).clean_within_iff, Expr.clean_check_iff]
  | scope, .tree head rules => by
    rw [check, Fits, (regular_checkConditions 0 head.conditions).clean_bind_iff fun inner =>
      regular_checkRules inner 0 rules, clean_checkConditions_iff, answer_checkConditions,
      clean_checkRules_iff _ 0 rules]

private theorem clean_checkRules_iff : (scope : TyEnv) → (index : Nat) → (rules : List Rule) →
    ((checkRules r scope index rules).Clean ↔ AllFit r scope rules)
  | _, _, [] => by simp [checkRules, AllFit]
  | scope, index, rule :: rest => by
    rw [checkRules, AllFit, ((regular_check scope rule).within _).clean_bind_iff fun _ =>
      regular_checkRules scope (index + 1) rest, (regular_check scope rule).clean_within_iff,
      clean_check_iff scope rule, clean_checkRules_iff scope (index + 1) rest]
end

end Rule
end EndpointRules
