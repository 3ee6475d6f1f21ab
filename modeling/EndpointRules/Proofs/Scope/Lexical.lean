import EndpointRules.Proofs.Document.Loading
import EndpointRules.Proofs.Related
import EndpointRules.Proofs.Typing.Values

/-! Lexical scope, said of the places in a rule tree. A name may be used where a condition that
assigns it stands in front, in the same rule or in a rule around it. The static checks carry a scope
down the tree instead and go on after each defect; they accept the same trees. -/

namespace EndpointRules

/-! Places. -/

/-- An expression stands in another one, at any depth. -/
inductive Expr.Within (sub : Expr) : Expr → Prop
  | here : Within sub sub
  | item {e : Expr} {items : List Expr} : e ∈ items → Within sub e → Within sub (.list items)
  | field {field : Text × Expr} {fields : List (Text × Expr)} :
      field ∈ fields → Within sub field.2 → Within sub (.record fields)
  | argument {f : Name} {e : Expr} {args : List Expr} :
      e ∈ args → Within sub e → Within sub (.call f args)

/-- A reference refers to its name, and a template to the names in its placeholders. -/
inductive Expr.RefersTo : Expr → Name → Prop
  | reference (name : Name) : RefersTo (.ref name) name
  | placeholder {t : Template} {name : Text} :
      name ∈ t.references → RefersTo (.template t) (.text name)

/-- A rule stands in a tree. The conditions are those of the rules around it, from the root down. -/
inductive Rule.Below (root : Rule) : List Condition → Rule → Prop
  | here : Below root [] root
  | child {above : List Condition} {head : RuleHead} {rules : List Rule} {rule : Rule} :
      Below root above (.tree head rules) → rule ∈ rules →
      Below root (above ++ head.conditions) rule

/-- A rule has an expression behind some of its conditions: that of a condition behind the earlier
ones, and what it ends in behind all of them. -/
inductive Rule.Has : Rule → List Condition → Expr → Prop
  | condition {rule : Rule} {before : List Condition} {c : Condition} {rest : List Condition} :
      rule.conditions = before ++ c :: rest → Has rule before c.expr
  | terminal {head : RuleHead} {body : EndpointBody} {e : Expr} :
      e ∈ body.exprs → Has (.endpoint head body) head.conditions e
  | message {head : RuleHead} {message : Expr} : Has (.error head message) head.conditions message

/-- The static type of an expression behind conditions. That of an assigned name is the type of what
it was assigned. -/
inductive Expr.HasType (r : Registry) (parameters : List Parameter) :
    List Condition → Expr → Ty → Prop
  | bool {behind : List Condition} (b : Bool) : HasType r parameters behind (.bool b) .bool
  | int {behind : List Condition} (n : Int) : HasType r parameters behind (.int n) .int
  | template {behind : List Condition} (t : Template) :
      HasType r parameters behind (.template t) .string
  | emptyList {behind : List Condition} : HasType r parameters behind (.list []) (.list .any)
  | textList {behind : List Condition} {items : List Expr} : items ≠ [] →
      (∀ e ∈ items, HasType r parameters behind e .string) →
      HasType r parameters behind (.list items) (.list .string)
  | mixedList {behind : List Condition} {items : List Expr} {e : Expr} {type : Ty} :
      e ∈ items → HasType r parameters behind e type → type ≠ .string →
      HasType r parameters behind (.list items) (.list .any)
  | record {behind : List Condition} (fields : List (Text × Expr)) :
      HasType r parameters behind (.record fields) .record
  | parameter {behind : List Condition} {name : Text} {p : Parameter} :
      findParameter? parameters name = some p →
      HasType r parameters behind (.ref (.text name)) p.staticType
  | assigned {before : List Condition} {c : Condition} {rest : List Condition} {name : Text}
      {type : Ty} : c.assign = some name → HasType r parameters before c.expr type →
      HasType r parameters (before ++ c :: rest) (.ref (.text name)) type
  | call {behind : List Condition} {name : Text} {f : Function} {args : List Expr} :
      r.find? name = some f → HasType r parameters behind (.call (.text name) args) f.returns

/-! Defects. -/

/-- A call of no function, with too few or too many arguments, or with one of another type. -/
def Miscalls (r : Registry) (parameters : List Parameter) (behind : List Condition) (f : Name)
    (args : List Expr) : Prop :=
  (∀ s, f = .text s → r.find? s = none) ∨
    ∃ (s : Text) (g : Function), f = .text s ∧ r.find? s = some g ∧
      (g.params.length ≠ args.length ∨
        ∃ (i : Nat) (expected : Ty) (arg : Expr) (type : Ty), g.params[i]? = some expected ∧
          args[i]? = some arg ∧ arg.HasType r parameters behind type ∧
          expected.assignable type = false)

namespace RuleSet
variable (r : Registry) (rs : RuleSet)

/-- A name that is neither a parameter nor assigned by a condition in front of its place. -/
def HasUnbound : Prop :=
  ∃ (above : List Condition) (rule : Rule) (before : List Condition) (e sub : Expr) (name : Name),
    rs.root.Below above rule ∧ rule.Has before e ∧ sub.Within e ∧ sub.RefersTo name ∧
      ∀ s, name = .text s →
        s ∉ rs.parameters.map Parameter.name ∧ s ∉ assigned before ∧ s ∉ assigned above

/-- A condition assigns a name that is taken. -/
def HasShadowing : Prop :=
  ∃ (above : List Condition) (rule : Rule) (before : List Condition) (c : Condition)
      (rest : List Condition) (name : Text),
    rs.root.Below above rule ∧ rule.conditions = before ++ c :: rest ∧ c.assign = some name ∧
    (name ∈ rs.parameters.map Parameter.name ∨ name ∈ assigned above ∨ name ∈ assigned before)

/-- A call does not fit the declaration of its function. -/
def HasMiscall : Prop :=
  ∃ (above : List Condition) (rule : Rule) (before : List Condition) (e : Expr) (f : Name)
      (args : List Expr),
    rs.root.Below above rule ∧ rule.Has before e ∧ (Expr.call f args).Within e ∧
      Miscalls r rs.parameters (above ++ before) f args

end RuleSet

variable {r : Registry} {scope : TyEnv} {parameters : List Parameter} {behind : List Condition}

/-! Static types. -/

namespace Expr

private theorem Fits.within {e sub : Expr} (h : e.Fits r scope) (hsub : sub.Within e) :
    sub.Fits r scope := by
  induction hsub with
  | here => exact h
  | item hmem _ ih => exact ih ((itemsFit_iff _).mp h _ hmem)
  | field hmem _ ih => exact ih ((fieldsFit_iff _).mp h _ hmem)
  | argument hmem _ ih => exact ih ((itemsFit_iff _).mp h.1 _ hmem)

private theorem ty_list (items : List Expr) : (Expr.list items).ty r scope =
    if items ≠ [] ∧ ∀ e ∈ items, e.ty r scope = .string then .list .string else .list .any := by
  rw [ty, itemTypes_eq_map]
  cases items with
  | nil => simp
  | cons e rest => simp [List.all_eq_true]

/-- In a scope of conditions that fit, an expression that fits has no type but the computed one. -/
private theorem HasType.ty_eq {e : Expr} {type : Ty} (h : e.HasType r parameters behind type)
    (hbehind : ConditionsFit r (TyEnv.ofParameters parameters) behind)
    (he : e.Fits r ((TyEnv.ofParameters parameters).after r behind)) :
    e.ty r ((TyEnv.ofParameters parameters).after r behind) = type := by
  induction h with
  | bool b => rfl
  | int n => rfl
  | template t => rfl
  | emptyList => rfl
  | textList hne _ ih =>
    rw [ty_list, if_pos ⟨hne, fun e hmem => ih e hmem hbehind ((itemsFit_iff _).mp he e hmem)⟩]
  | mixedList hmem _ hother ih =>
    have htype := ih hbehind ((itemsFit_iff _).mp he _ hmem)
    rw [ty_list, if_neg fun hall => hother (htype.symm.trans (hall.2 _ hmem))]
  | record fields => rfl
  | @parameter behind name p hfind =>
    have houter : (TyEnv.ofParameters parameters).find? name = some p.staticType := by
      rw [TyEnv.find?_ofParameters, hfind]
      rfl
    rw [ty, TyEnv.findName?, TyEnv.find?_after_of_some houter behind]
    rfl
  | @assigned before c rest name type hassign _ ih =>
    obtain ⟨hbefore, hc, -⟩ := conditionsFit_append.mp hbehind
    rw [ty, TyEnv.findName?, hbehind.find?_assigned hassign, Option.getD_some]
    exact ih hbefore hc.1
  | @call behind name f args hfind =>
    obtain ⟨-, type, htype⟩ := he
    obtain ⟨s, g, hs, hg, hreturns, -⟩ := Registry.checkCall_ok_iff.mp htype
    cases hs
    cases hg.symm.trans hfind
    rw [ty]
    simp only [htype]
    exact hreturns.symm

/-- In a scope of conditions that fit, an expression that fits has the computed type. -/
private theorem Fits.hasType {e : Expr}
    (hbehind : ConditionsFit r (TyEnv.ofParameters parameters) behind)
    (he : e.Fits r ((TyEnv.ofParameters parameters).after r behind)) :
    e.HasType r parameters behind (e.ty r ((TyEnv.ofParameters parameters).after r behind)) := by
  -- A reference leads to a condition further in front, so the induction is on the conditions first.
  induction hlength : behind.length using Nat.strongRecOn generalizing behind e with
  | _ n outer =>
    induction e using Expr.ind with
    | bool b => exact .bool b
    | int n => exact .int n
    | template t => exact .template t
    | record fields => exact .record fields
    | list items ih =>
      have hitems := (itemsFit_iff _).mp he
      rw [ty_list]
      split
      · next hall => exact .textList hall.1 fun e hmem => hall.2 e hmem ▸ ih e hmem (hitems e hmem)
      · next hsome =>
        cases items with
        | nil => exact .emptyList
        | cons first rest =>
          have hother : ¬ ∀ e ∈ first :: rest, e.ty r _ = .string :=
            fun hall => hsome ⟨List.cons_ne_nil _ _, hall⟩
          simp only [not_forall] at hother
          obtain ⟨e, hmem, htype⟩ := hother
          exact .mixedList hmem (ih e hmem (hitems e hmem)) htype
    | ref given =>
      cases given with
      | text name =>
        obtain ⟨type, htype⟩ := Option.isSome_iff_exists.mp he
        have hfound : ((TyEnv.ofParameters parameters).after r behind).find? name = some type :=
          htype
        rw [ty, htype, Option.getD_some]
        rcases TyEnv.find?_after_cases hfound with hparameter | ⟨before, c, rest, rfl, hassign, rfl⟩
        · rw [TyEnv.find?_ofParameters, Option.map_eq_some_iff] at hparameter
          obtain ⟨p, hp, rfl⟩ := hparameter
          exact .parameter hp
        · obtain ⟨hbefore, hc, -⟩ := conditionsFit_append.mp hbehind
          have hshorter : before.length < n := by
            rw [← hlength, List.length_append, List.length_cons]
            omega
          exact .assigned hassign (outer before.length hshorter hbefore hc.1 rfl)
      | other given => cases he
    | call f args _ =>
      obtain ⟨-, type, htype⟩ := he
      obtain ⟨s, g, rfl, hg, rfl, -⟩ := Registry.checkCall_ok_iff.mp htype
      have hty : (Expr.call (.text s) args).ty r ((TyEnv.ofParameters parameters).after r behind) =
          g.returns := by
        rw [ty]
        simp only [htype]
      rw [hty]
      exact .call hg

/-! Expressions in their places. -/

private theorem isSome_findName?_iff {name : Name} :
    (((TyEnv.ofParameters parameters).after r behind).findName? name).isSome ↔
      ∃ s, name = .text s ∧ (s ∈ parameters.map Parameter.name ∨ s ∈ assigned behind) := by
  cases name with
  | text s =>
    rw [TyEnv.findName?, TyEnv.isSome_find?_after, TyEnv.isSome_find?_ofParameters]
    simp
  | other given => simp [TyEnv.findName?]

/-- A call whose arguments fit does so exactly when it is no miscall. -/
private theorem fits_call_iff {f : Name} {args : List Expr}
    (hbehind : ConditionsFit r (TyEnv.ofParameters parameters) behind)
    (hargs : ∀ e ∈ args, e.Fits r ((TyEnv.ofParameters parameters).after r behind)) :
    (Expr.call f args).Fits r ((TyEnv.ofParameters parameters).after r behind) ↔
      ¬ Miscalls r parameters behind f args := by
  have htypes {i : Nat} {arg : Expr} (harg : args[i]? = some arg) : arg.Fits r _ :=
    hargs arg (List.mem_of_getElem? harg)
  constructor
  · rintro ⟨-, type, htype⟩ hmiscalls
    obtain ⟨s, g, rfl, hg, -, hall⟩ := Registry.checkCall_ok_iff.mp htype
    rw [itemTypes_eq_map, List.forall₂_map_right_iff, Related.forall₂_iff_getElem?] at hall
    obtain ⟨hlength, hassignable⟩ := hall
    rcases hmiscalls with hunknown | ⟨s', g', hs, hg', hdefect⟩
    · cases (hunknown s rfl).symm.trans hg
    · cases hs
      cases hg.symm.trans hg'
      rcases hdefect with hother | ⟨i, expected, arg, type, hexpected, harg, hhas, hnot⟩
      · exact hother hlength
      · have hfits := hassignable i expected arg hexpected harg
        rw [hhas.ty_eq hbehind (htypes harg), hnot] at hfits
        cases hfits
  · intro hno
    obtain ⟨hknown, hgood⟩ := not_or.mp hno
    simp only [not_forall] at hknown
    obtain ⟨s, hs, hfound⟩ := hknown
    obtain ⟨g, hg⟩ := Option.ne_none_iff_exists'.mp hfound
    refine ⟨(itemsFit_iff args).mpr hargs, g.returns,
      Registry.checkCall_ok_iff.mpr ⟨s, g, hs, hg, rfl, ?_⟩⟩
    rw [itemTypes_eq_map, List.forall₂_map_right_iff, Related.forall₂_iff_getElem?]
    constructor
    · by_contra hlength
      exact hgood ⟨s, g, hs, hg, .inl hlength⟩
    · intro i expected arg hexpected harg
      by_contra hnot
      exact hgood ⟨s, g, hs, hg, .inr ⟨i, expected, arg, _, hexpected, harg,
        (htypes harg).hasType hbehind, Bool.eq_false_iff.mpr hnot⟩⟩

/-- An expression fits behind conditions that fit when the names in it are known there and none of
its calls is a miscall. -/
theorem fits_iff {e : Expr} (hbehind : ConditionsFit r (TyEnv.ofParameters parameters) behind) :
    e.Fits r ((TyEnv.ofParameters parameters).after r behind) ↔
      (∀ (sub : Expr) (name : Name), sub.Within e → sub.RefersTo name →
        ∃ s, name = .text s ∧ (s ∈ parameters.map Parameter.name ∨ s ∈ assigned behind)) ∧
      ∀ f args, (Expr.call f args).Within e → ¬ Miscalls r parameters behind f args := by
  constructor
  · intro h
    constructor
    · intro sub name hsub hname
      have hfits := h.within hsub
      cases hname with
      | reference name => exact isSome_findName?_iff.mp hfits
      | placeholder hmem => exact isSome_findName?_iff.mp (hfits _ hmem)
    · intro f args hcall
      have hfits := h.within hcall
      exact (fits_call_iff hbehind ((itemsFit_iff args).mp hfits.1)).mp hfits
  · rintro ⟨hnames, hcalls⟩
    induction e using Expr.ind with
    | bool b => trivial
    | int n => trivial
    | template t =>
      intro name hmem
      have hknown := hnames _ _ .here (.placeholder hmem)
      exact isSome_findName?_iff.mpr hknown
    | ref name => exact isSome_findName?_iff.mpr (hnames _ _ .here (.reference name))
    | list items ih =>
      refine (itemsFit_iff items).mpr fun e hmem => ih e hmem ?_ ?_
      · exact fun sub name hsub => hnames sub name (.item hmem hsub)
      · exact fun f args hcall => hcalls f args (.item hmem hcall)
    | record fields ih =>
      refine (fieldsFit_iff fields).mpr fun field hmem => ih field hmem ?_ ?_
      · exact fun sub name hsub => hnames sub name (.field hmem hsub)
      · exact fun f args hcall => hcalls f args (.field hmem hcall)
    | call f args ih =>
      refine (fits_call_iff hbehind fun e hmem => ih e hmem ?_ ?_).mpr (hcalls f args .here)
      · exact fun sub name hsub => hnames sub name (.argument hmem hsub)
      · exact fun g args' hcall => hcalls g args' (.argument hmem hcall)

end Expr

/-! Rules in their places. -/

namespace Rule
variable {root rule : Rule} {above before : List Condition} {e : Expr}

/-- What stands below a child stands below the tree rule, with its conditions in front. -/
theorem Below.under {head : RuleHead} {rules : List Rule} {child : Rule} (hchild : child ∈ rules)
    (h : child.Below above rule) :
    (Rule.tree head rules).Below (head.conditions ++ above) rule := by
  induction h with
  | here =>
    rw [List.append_nil]
    exact .child .here hchild
  | child _ hmem ih =>
    rw [← List.append_assoc]
    exact .child ih hmem

theorem Fits.below (h : root.Fits r scope) (hb : root.Below above rule) :
    rule.Fits r (scope.after r above) := by
  induction hb with
  | here => exact h
  | child _ hmem ih =>
    rw [TyEnv.after_append]
    exact (allFit_iff _).mp ih.2 _ hmem

/-- In a rule that fits, the conditions on the way to a rule and those of the rule fit. -/
private theorem Fits.conditions_below (h : root.Fits r scope) (hb : root.Below above rule) :
    ConditionsFit r scope (above ++ rule.conditions) := by
  induction hb with
  | here => exact h.conditions_fit
  | child hparent hmem ih =>
    have hchild := (h.below (.child hparent hmem)).conditions_fit
    exact conditionsFit_append.mpr ⟨ih, hchild⟩

private theorem Fits.has (h : rule.Fits r scope) (he : rule.Has before e) :
    e.Fits r (scope.after r before) := by
  cases he with
  | condition hsplit =>
    have hconditions := h.conditions_fit
    rw [hsplit] at hconditions
    exact (conditionsFit_append.mp hconditions).2.1.1
  | terminal hmem => exact h.2 _ hmem
  | message => exact h.2

private theorem Has.conditions_split (h : rule.Has before e) :
    ∃ rest, rule.conditions = before ++ rest := by
  cases h with
  | condition hsplit => exact ⟨_, hsplit⟩
  | terminal _ => exact ⟨[], (List.append_nil _).symm⟩
  | message => exact ⟨[], (List.append_nil _).symm⟩

/-- A rule fits when everything in every place of it does. -/
private theorem fits_of_places
    (h : ∀ above rule, root.Below above rule →
      ConditionsFit r (scope.after r above) rule.conditions ∧
      ∀ before e, rule.Has before e → e.Fits r ((scope.after r above).after r before)) :
    root.Fits r scope := by
  induction root using Rule.ind generalizing scope with
  | endpoint head body =>
    obtain ⟨hconditions, hplaces⟩ := h [] _ .here
    exact ⟨hconditions, fun e hmem => hplaces _ e (.terminal hmem)⟩
  | error head message =>
    obtain ⟨hconditions, hplaces⟩ := h [] _ .here
    exact ⟨hconditions, hplaces _ _ .message⟩
  | tree head rules ih =>
    refine ⟨(h [] _ .here).1, (allFit_iff rules).mpr fun child hchild => ih child hchild ?_⟩
    intro above rule hb
    rw [← TyEnv.after_append]
    exact h _ rule (hb.under hchild)

/-- In a rule that fits, an expression fits behind the conditions in front of its place, and these
fit. -/
theorem Fits.place (h : root.Fits r scope) (hb : root.Below above rule) (he : rule.Has before e) :
    ConditionsFit r scope (above ++ before) ∧ e.Fits r (scope.after r (above ++ before)) := by
  constructor
  · obtain ⟨rest, hsplit⟩ := he.conditions_split
    have hall := h.conditions_below hb
    rw [hsplit, ← List.append_assoc] at hall
    exact (conditionsFit_append.mp hall).1
  · rw [TyEnv.after_append]
    exact (h.below hb).has he

end Rule

namespace RuleSet
variable {rs : RuleSet} {above before : List Condition} {rule : Rule}

private theorem known_iff {s : Text} :
    (s ∈ rs.parameters.map Parameter.name ∨ s ∈ assigned (above ++ before)) ↔
      ¬ (s ∉ rs.parameters.map Parameter.name ∧ s ∉ assigned before ∧ s ∉ assigned above) := by
  rw [mem_assigned_append, or_comm (a := s ∈ assigned above)]
  simp only [not_and_or, not_not]

/-- Without unbound names and miscalls, an expression fits behind conditions that do. -/
private theorem fits_of_no_defect (hunbound : ¬ rs.HasUnbound) (hmiscall : ¬ rs.HasMiscall r)
    (hb : rs.root.Below above rule) {e : Expr} (he : rule.Has before e)
    (hconditions : ConditionsFit r (TyEnv.ofParameters rs.parameters) (above ++ before)) :
    e.Fits r ((TyEnv.ofParameters rs.parameters).after r (above ++ before)) := by
  rw [Expr.fits_iff hconditions]
  constructor
  · intro sub name hsub hname
    by_contra hno
    refine hunbound ⟨above, rule, before, e, sub, name, hb, he, hsub, hname, fun s hs => ?_⟩
    by_contra hknown
    exact hno ⟨s, hs, known_iff.mpr hknown⟩
  · intro f args hcall hmiscalls
    exact hmiscall ⟨above, rule, before, e, f, args, hb, he, hcall, hmiscalls⟩

/-- An assignment that shadows nothing is to a new name. -/
private theorem new_of_no_shadowing (hshadowing : ¬ rs.HasShadowing) (hb : rs.root.Below above rule)
    {c : Condition} {rest : List Condition} (hsplit : rule.conditions = before ++ c :: rest)
    {name : Text} (hassign : c.assign = some name) :
    ((TyEnv.ofParameters rs.parameters).after r (above ++ before)).contains name = false := by
  rw [← Bool.not_eq_true]
  intro htaken
  have hfound : (((TyEnv.ofParameters rs.parameters).after r (above ++ before)).find?
      name).isSome := htaken
  rw [TyEnv.isSome_find?_after, TyEnv.isSome_find?_ofParameters, mem_assigned_append] at hfound
  exact hshadowing ⟨above, rule, before, c, rest, name, hb, hsplit, hassign, hfound⟩

private theorem conditions_fit_of_no_defect (hunbound : ¬ rs.HasUnbound)
    (hshadowing : ¬ rs.HasShadowing)
    (hmiscall : ¬ rs.HasMiscall r) (hb : rs.root.Below above rule)
    (habove : ConditionsFit r (TyEnv.ofParameters rs.parameters) above) :
    ConditionsFit r (TyEnv.ofParameters rs.parameters) (above ++ rule.conditions) := by
  have hstep (rest : List Condition) : ∀ before, rule.conditions = before ++ rest →
      ConditionsFit r (TyEnv.ofParameters rs.parameters) (above ++ before) →
      ConditionsFit r (TyEnv.ofParameters rs.parameters) (above ++ rule.conditions) := by
    induction rest with
    | nil =>
      intro before hsplit hbefore
      rw [hsplit, List.append_nil]
      exact hbefore
    | cons c rest ih =>
      intro before hsplit hbefore
      have hc : c.Fits r ((TyEnv.ofParameters rs.parameters).after r (above ++ before)) :=
        ⟨fits_of_no_defect hunbound hmiscall hb (.condition hsplit) hbefore,
          fun _ hassign => new_of_no_shadowing hshadowing hb hsplit hassign⟩
      apply ih (before ++ [c])
      · rw [hsplit, List.append_assoc]
        rfl
      · rw [← List.append_assoc]
        exact conditionsFit_append.mpr ⟨hbefore, hc, trivial⟩
  refine hstep rule.conditions [] rfl ?_
  rw [List.append_nil]
  exact habove

/-- The rules fit the scope of the parameters exactly when there is no defect in them. -/
theorem root_fits_iff : rs.root.Fits r (TyEnv.ofParameters rs.parameters) ↔
    ¬ (rs.HasUnbound ∨ rs.HasShadowing ∨ rs.HasMiscall r) := by
  constructor
  · rintro h (hunbound | hshadowing | hmiscall)
    · obtain ⟨above, rule, before, e, sub, name, hb, he, hsub, hname, hunknown⟩ := hunbound
      obtain ⟨hconditions, hfits⟩ := h.place hb he
      obtain ⟨s, hs, hknown⟩ := ((Expr.fits_iff hconditions).mp hfits).1 sub name hsub hname
      exact known_iff.mp hknown (hunknown s hs)
    · obtain ⟨above, rule, before, c, rest, name, hb, hsplit, hassign, htaken⟩ := hshadowing
      have hall := h.conditions_below hb
      rw [hsplit, ← List.append_assoc] at hall
      have hnew := (conditionsFit_append.mp hall).2.1.2 name hassign
      have hfound : (((TyEnv.ofParameters rs.parameters).after r (above ++ before)).find?
          name).isSome := by
        rw [TyEnv.isSome_find?_after, TyEnv.isSome_find?_ofParameters, mem_assigned_append]
        exact htaken
      cases hnew.symm.trans hfound
    · obtain ⟨above, rule, before, e, f, args, hb, he, hcall, hmiscalls⟩ := hmiscall
      obtain ⟨hconditions, hfits⟩ := h.place hb he
      exact ((Expr.fits_iff hconditions).mp hfits).2 f args hcall hmiscalls
  · intro hno
    obtain ⟨hunbound, hrest⟩ := not_or.mp hno
    obtain ⟨hshadowing, hmiscall⟩ := not_or.mp hrest
    have habove : ∀ above rule, rs.root.Below above rule →
        ConditionsFit r (TyEnv.ofParameters rs.parameters) above := by
      intro above rule hb
      induction hb with
      | here => trivial
      | child hparent _ ih =>
        exact conditions_fit_of_no_defect hunbound hshadowing hmiscall hparent ih
    apply Rule.fits_of_places
    intro above rule hb
    have hall := conditions_fit_of_no_defect hunbound hshadowing hmiscall hb (habove above rule hb)
    refine ⟨(conditionsFit_append.mp hall).2, fun before e he => ?_⟩
    obtain ⟨rest, hsplit⟩ := he.conditions_split
    rw [hsplit, ← List.append_assoc] at hall
    rw [← TyEnv.after_append]
    exact fits_of_no_defect hunbound hmiscall hb he (conditionsFit_append.mp hall).1

private theorem analyze_schema_iff_fits :
    (∃ errors, rs.analyze r = .error (.schema errors)) ↔
      rs.root.breakdown? = none ∧ ¬ rs.root.Fits r (TyEnv.ofParameters rs.parameters) := by
  rw [← Rule.clean_check_iff]
  unfold analyze refuse
  cases hnames : rs.root.breakdown? with
  | some b => simp [LoadError.breakdown]
  | none =>
    cases herrors : (rs.check r).errors with
    | nil =>
      have hclean : (rs.root.check r (TyEnv.ofParameters rs.parameters)).Clean := herrors
      simp [hclean]
    | cons first others =>
      have hdefect : ¬ (rs.root.check r (TyEnv.ofParameters rs.parameters)).Clean := by
        intro hclean
        have hnone : (rs.check r).errors = [] := hclean
        cases hnone.symm.trans herrors
      simp [hdefect]

/-- A tree rule is accepted with all its rules when it is accepted with each of them alone: what one
branch assigns never matters to another. -/
private theorem clean_check_tree_iff {scope : TyEnv} {head : RuleHead} {rules : List Rule}
    (hne : rules ≠ []) : ((Rule.tree head rules).check r scope).Clean ↔
      ∀ rule ∈ rules, ((Rule.tree head [rule]).check r scope).Clean := by
  simp only [Rule.clean_check_iff, Rule.Fits, Rule.allFit_iff, List.forall_mem_singleton]
  constructor
  · exact fun h rule hrule => ⟨h.1, h.2 rule hrule⟩
  · intro h
    obtain ⟨first, hfirst⟩ := List.exists_mem_of_ne_nil rules hne
    exact ⟨(h first hfirst).1, fun rule hrule => (h rule hrule).2⟩

/-- The static checks of a valid document report defects exactly when there is one in some place, if
every name can be looked up and shown. All names can be unless an endpoint rule has open properties.
Branches are accepted together when each is accepted alone. -/
theorem analyze_schema_iff {document : Json} (hv : (Document.validateRuleSet r document).Clean)
    (hb : build document = .ok rs) :
    ((∃ errors, rs.analyze r = .error (.schema errors)) ↔
      rs.root.breakdown? = none ∧ (rs.HasUnbound ∨ rs.HasShadowing ∨ rs.HasMiscall r)) ∧
    ((∀ raw, Document.RuleIn document raw → ¬ Document.HasOpenProperties raw) →
      rs.root.breakdown? = none) ∧
    ∀ scope head rules, rules ≠ [] → (((Rule.tree head rules).check r scope).Clean ↔
      ∀ rule ∈ rules, ((Rule.tree head [rule]).check r scope).Clean) := by
  refine ⟨?_, fun hclosed => ?_, fun scope head rules hne => clean_check_tree_iff hne⟩
  · rw [analyze_schema_iff_fits, root_fits_iff, not_not]
  · obtain ⟨built, hbuilt, hnames⟩ := builds_of_valid hv hclosed
    cases hb.symm.trans hbuilt
    exact hnames

theorem analyze_schema_iff_sample : (Document.validateRuleSet .standard sampleDocument).Clean ∧
    build sampleDocument = .ok sampleRuleSet ∧
    ((∃ errors, sampleRuleSet.analyze .standard = .error (.schema errors)) ↔
      sampleRuleSet.root.breakdown? = none ∧
        (sampleRuleSet.HasUnbound ∨ sampleRuleSet.HasShadowing ∨
          sampleRuleSet.HasMiscall .standard)) := by
  have hloaded := loaded_of_load sample_loads
  exact ⟨hloaded.valid, hloaded.built, (analyze_schema_iff hloaded.valid hloaded.built).1⟩

/-- Properties with an entry `ref`, beside which an array stands for the name of a reference. -/
def openDocument : Json := .obj [("version", .str "1.0"),
  ("rules", .arr [.obj [("type", .str "endpoint"),
    ("endpoint", .obj [("url", .str "https://a.b"),
      ("properties", .obj [("ref", .str "x"), ("other", .obj [("ref", .arr [.str "y"])])])])]])]

def openBody : EndpointBody :=
  ⟨.template ⟨"https://a.b", [.text "https://a.b"]⟩,
    [("ref", .template ⟨"x", [.text "x"]⟩), ("other", .ref (.other (.arr [.str "y"])))], []⟩

def openRuleSet : RuleSet := ⟨"1.0", [], [.endpoint ⟨"rules[0]", [], none⟩ openBody]⟩

theorem analyze_open_document : (Document.validateRuleSet .standard openDocument).Clean ∧
    build openDocument = .ok openRuleSet ∧
    ¬ ((∃ errors, openRuleSet.analyze .standard = .error (.schema errors)) ↔
      openRuleSet.HasUnbound ∨ openRuleSet.HasShadowing ∨ openRuleSet.HasMiscall .standard) := by
  have hunbound : openRuleSet.HasUnbound := by
    have hbelow : openRuleSet.root.Below [] (.endpoint ⟨"rules[0]", [], none⟩ openBody) :=
      .child .here (List.mem_singleton_self _)
    have hplace : Expr.ref (.other (.arr [.str "y"])) ∈ openBody.exprs := by
      simp [openBody, EndpointBody.exprs]
    refine ⟨[], _, [], _, _, _, hbelow, .terminal hplace, .here, .reference _, fun s hs => ?_⟩
    cases hs
  have hanalyze : openRuleSet.analyze .standard = .error (.breakdown (.unsearchable "list")) := rfl
  refine ⟨rfl, rfl, fun hiff => ?_⟩
  obtain ⟨errors, herrors⟩ := hiff.mpr (.inl hunbound)
  cases hanalyze.symm.trans herrors

end RuleSet
end EndpointRules
