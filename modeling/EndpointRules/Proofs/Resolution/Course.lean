import EndpointRules.Proofs.Document.Paths
import EndpointRules.Proofs.Resolution.Steps
import EndpointRules.Resolution.Stack
import Mathlib.Data.List.Lex

/-! The course of a walk. Rules are ordered as in the document: by their positions, of which a
position comes before all positions below it. A walk that ends in an endpoint or an error rule does
not go beyond that rule. -/

namespace EndpointRules

/-- A point of a walk: a rule, and the first ones of its conditions, which hold. -/
structure Stop where
  position : List Nat
  rule : Rule
  held : List Condition
  env : Environment

/-- All conditions of an endpoint or an error hold, and its expressions give the result. -/
structure Stop.IsEnd (stop : Stop) : Prop where
  held_eq : stop.held = stop.rule.conditions
  kind_ne : stop.rule.kind ≠ .tree

/-- Below one position, rules are in the order in which they are there. -/
private theorem append_lt_append_iff (position : List Nat) {further further' : List Nat} :
    position ++ further < position ++ further' ↔ further < further' := by
  induction position with
  | nil => rfl
  | cons index rest ih => simp [ih]

/-- What stands below a position does not come before it. -/
private theorem not_append_lt (position further : List Nat) : ¬ position ++ further < position := by
  intro h
  rw [← List.append_nil position, List.append_assoc, append_lt_append_iff] at h
  exact List.not_lt_nil _ h

/-- A condition has a value that lets its rule go on. -/
def Condition.Holds (r : Registry) (env : Environment) (c : Condition) : Prop :=
  ∃ v, (c.expr.eval r env).outcome = .ok v ∧ Value.isTruthy v = true

private theorem Condition.holds_of_test {r : Registry} {env inner : Environment} {c : Condition}
    {rest : List Condition} (h : env.test r (c :: rest) = .ok (some inner)) : c.Holds r env := by
  cases hc : (c.expr.eval r env).outcome with
  | error e => cases (Environment.test_cons_of_error hc).symm.trans h
  | ok v =>
    cases hv : Value.isTruthy v with
    | false => cases (Environment.test_cons_of_false hc hv).symm.trans h
    | true => exact ⟨v, hc, hv⟩

namespace WalkContext
variable {ctx : WalkContext} {position : List Nat} {env inner : Environment} {rule : Rule}
  {stop last : Stop}

/-- Trying a rule at a position comes to a point in it: to the rule itself as far as its conditions
hold, and below it when all of them hold and the children in front give nothing. -/
inductive ComesTo (ctx : WalkContext) : List Nat → Environment → Rule → Stop → Prop
  | here {position : List Nat} {env : Environment} {rule : Rule} {held rest : List Condition}
      {inner : Environment} :
      rule.conditions = held ++ rest → env.test ctx.registry held = .ok (some inner) →
      ComesTo ctx position env rule ⟨position, rule, held, inner⟩
  | child {position : List Nat} {env : Environment} {head : RuleHead} {before : List Rule}
      {rule : Rule} {after : List Rule} {inner : Environment} {stop : Stop} :
      env.test ctx.registry head.conditions = .ok (some inner) →
      (ctx.tryRules inner before).outcome = .ok none →
      ComesTo ctx (position ++ [before.length]) inner.push rule stop →
      ComesTo ctx position env (.tree head (before ++ rule :: after)) stop

/-- The points below a tree rule lie in one of its children. -/
private theorem ComesTo.tree_cases {head : RuleHead} {rules : List Rule}
    (h : ctx.ComesTo position env (.tree head rules) stop) :
    stop.position = position ∧ stop.rule = .tree head rules ∨
      ∃ before rule after inner, rules = before ++ rule :: after ∧
        env.test ctx.registry head.conditions = .ok (some inner) ∧
        (ctx.tryRules inner before).outcome = .ok none ∧
        ctx.ComesTo (position ++ [before.length]) inner.push rule stop := by
  generalize htree : Rule.tree head rules = tree at h
  cases h with
  | here => exact .inl ⟨rfl, rfl⟩
  | child htest hbefore hchild =>
    cases htree
    exact .inr ⟨_, _, _, _, rfl, htest, hbefore, hchild⟩

/-- A point lies in the rule that is found below the position where the walk starts. -/
private theorem ComesTo.exists_at? (h : ctx.ComesTo position env rule stop) :
    ∃ further, stop.position = position ++ further ∧ rule.at? further = some stop.rule := by
  induction h with
  | here => exact ⟨[], (List.append_nil _).symm, by rw [Rule.at?]⟩
  | @child position env head before rule after inner stop _ _ _ ih =>
    obtain ⟨further, hposition, hat⟩ := ih
    refine ⟨before.length :: further, ?_, ?_⟩
    · rw [hposition, List.append_assoc, List.singleton_append]
    · rw [Rule.at?, List.getElem?_append_right (Nat.le_refl _), Nat.sub_self,
        List.getElem?_cons_zero, Option.bind_some, hat]

/-- Rules behind some that give nothing are tried as if they were the first. -/
theorem outcome_tryRules_behind {before : List Rule} (rules : List Rule)
    (h : (ctx.tryRules env before).outcome = .ok none) :
    (ctx.tryRules env (before ++ rules)).outcome = (ctx.tryRules env rules).outcome := by
  rw [outcome_tryRules_append, h]
  rfl

/-- The walk ends at the first end to which it comes: what is entered there is the outcome. -/
private theorem ComesTo.outcome_eq (h : ctx.ComesTo position env rule last) (hend : last.IsEnd) :
    (ctx.tryRule env rule).outcome = (ctx.enter last.env last.rule).outcome := by
  induction h with
  | @here position env rule held rest inner hsplit hheld =>
    have hall : held = rule.conditions := hend.held_eq
    rw [outcome_tryRule, ← hall, Environment.behind_of_holds hheld]
  | @child position env head before rule after inner last htest hbefore _ ih =>
    have htree : (ctx.tryRule env (.tree head (before ++ rule :: after))).outcome =
        (ctx.tryRules inner (before ++ rule :: after)).outcome := by
      rw [outcome_tryRule]
      exact Environment.behind_of_holds htest
    have hchild := ih hend
    rw [htree, outcome_tryRules_behind _ hbefore, outcome_tryRules_cons, hchild]
    cases hentered : (ctx.enter last.env last.rule).outcome with
    | error e => rfl
    | ok found =>
      cases found with
      | some result => rfl
      | none => exact absurd hentered (enter_ne_none hend.kind_ne _)

theorem ComesTo.outcome_ne_none (h : ctx.ComesTo position env rule last) (hend : last.IsEnd) :
    (ctx.tryRule env rule).outcome ≠ .ok none := by
  rw [h.outcome_eq hend]
  exact enter_ne_none hend.kind_ne _

/-- Two elements of one list are the same, or one of them is among those in front of the other. -/
private theorem compare_split {α : Type} {before before' after after' : List α} {x x' : α}
    (h : before ++ x :: after = before' ++ x' :: after') :
    before = before' ∧ x = x' ∨ (before.length < before'.length ∧ x ∈ before') ∨
      before'.length < before.length := by
  obtain ⟨between, hlater, hsame⟩ | ⟨between, hearlier, hsame⟩ := List.append_eq_append_iff.mp h
  · cases between with
    | nil =>
      cases hsame
      exact .inl ⟨by rw [hlater, List.append_nil], rfl⟩
    | cons first more =>
      cases hsame
      refine .inr (.inl ⟨?_, by simp [hlater]⟩)
      rw [hlater, List.length_append, List.length_cons]
      omega
  · cases between with
    | nil =>
      cases hsame
      exact .inl ⟨by rw [hearlier, List.append_nil], rfl⟩
    | cons first more =>
      refine .inr (.inr ?_)
      rw [hearlier, List.length_append, List.length_cons]
      omega

/-- The walk does not come to any rule that stands behind the end. -/
theorem ComesTo.not_beyond (h : ctx.ComesTo position env rule last) (hend : last.IsEnd)
    (hstop : ctx.ComesTo position env rule stop) : ¬ last.position < stop.position := by
  induction h with
  | @here position env rule held rest inner =>
    cases hstop with
    | here => exact List.lt_irrefl _
    | child => exact absurd rfl hend.kind_ne
  | @child position env head before rule after inner last htest hbefore hchild ih =>
    obtain ⟨further, hlast, -⟩ := hchild.exists_at?
    obtain ⟨hposition, -⟩ | ⟨before', rule', after', inner', hsplit, htest', hbefore', hstop⟩ :=
      hstop.tree_cases
    · rw [hposition, hlast, List.append_assoc]
      exact not_append_lt _ _
    · obtain rfl : inner = inner' := by
        rw [htest] at htest'
        cases htest'
        rfl
      obtain ⟨rfl, rfl⟩ | ⟨-, hmem⟩ | hlength := compare_split hsplit
      · exact ih hend hstop
      · -- the end is in a child in front of the point, which would have given nothing
        exact absurd (tryRules_none_iff.mp hbefore' rule hmem) (hchild.outcome_ne_none hend)
      · obtain ⟨further', hposition, -⟩ := hstop.exists_at?
        rw [hlast, hposition, List.append_assoc, List.append_assoc, append_lt_append_iff,
          List.singleton_append, List.singleton_append, List.cons_lt_cons_iff]
        omega

/-- No more conditions hold one after another than those in front of one that fails. -/
private theorem held_le_of_fails {held held' rest rest' : List Condition} {c : Condition}
    {inner' : Environment} (hheld : env.test ctx.registry held = .ok (some inner))
    (hfails : ¬ c.Holds ctx.registry inner)
    (hheld' : env.test ctx.registry held' = .ok (some inner'))
    (h : held ++ c :: rest = held' ++ rest') : held'.length ≤ held.length := by
  obtain ⟨between, hlater, hsame⟩ | ⟨between, hearlier, -⟩ := List.append_eq_append_iff.mp h
  · cases between with
    | nil => rw [hlater, List.append_nil]
    | cons first more =>
      cases hsame
      rw [hlater, Environment.test_append, Environment.behind_of_holds hheld] at hheld'
      exact absurd (Condition.holds_of_test hheld') hfails
  · rw [hearlier, List.length_append]
    omega

/-- Where a condition fails or has an error, the walk comes no further in its rule, and to nothing
below it. -/
theorem ComesTo.halted (h : ctx.ComesTo position env rule stop) {c : Condition}
    {rest : List Condition} (hsplit : stop.rule.conditions = stop.held ++ c :: rest)
    (hfails : ¬ c.Holds ctx.registry stop.env) {other : Stop}
    (hother : ctx.ComesTo position env rule other) :
    (other.position = stop.position → other.held.length ≤ stop.held.length) ∧
      ∀ index further, other.position ≠ stop.position ++ index :: further := by
  induction h with
  | @here position env rule held rest' inner _ hheld =>
    have hsplit : rule.conditions = held ++ c :: rest := hsplit
    cases hother with
    | here hsplit' hheld' =>
      refine ⟨fun _ => ?_, fun index further heq => ?_⟩
      · exact held_le_of_fails hheld hfails hheld' (hsplit.symm.trans hsplit')
      · simp at heq
    | @child _ _ head before child after inner' _ htest =>
      -- all conditions would hold
      have hall : held ++ c :: rest = head.conditions ++ [] :=
        hsplit.symm.trans (List.append_nil _).symm
      have hlength := held_le_of_fails hheld hfails htest hall
      rw [List.append_nil] at hall
      rw [← hall, List.length_append, List.length_cons] at hlength
      omega
  | @child position env head before rule after inner stop htest _ hchild ih =>
    obtain ⟨further, hstop, -⟩ := hchild.exists_at?
    rw [List.append_assoc] at hstop
    obtain ⟨hposition, -⟩ | ⟨before', rule', after', inner', htree, htest', -, hother⟩ :=
      hother.tree_cases
    · rw [hposition, hstop]
      constructor
      · intro heq
        simp at heq
      · intro index below heq
        simp at heq
    · obtain rfl : inner = inner' := by
        rw [htest] at htest'
        cases htest'
        rfl
      have hapart (hlength : before.length ≠ before'.length) :
          (other.position = stop.position → other.held.length ≤ stop.held.length) ∧
            ∀ index further, other.position ≠ stop.position ++ index :: further := by
        obtain ⟨further', hposition, -⟩ := hother.exists_at?
        rw [hposition, hstop]
        constructor
        · intro heq
          simp at heq
          omega
        · intro index below heq
          simp at heq
          omega
      obtain ⟨rfl, rfl⟩ | ⟨hlength, -⟩ | hlength := compare_split htree
      · exact ih hsplit hfails hother
      · exact hapart (Nat.ne_of_lt hlength)
      · exact hapart (Nat.ne_of_gt hlength)

/-- A rule that gives something does so at an end. -/
private theorem exists_end (position : List Nat) {result : Resolution}
    (h : (ctx.tryRule env rule).outcome = .ok (some result)) :
    ∃ last, ctx.ComesTo position env rule last ∧ last.IsEnd := by
  induction rule using Rule.ind generalizing position env with
  | endpoint head body =>
    rw [outcome_tryRule] at h
    obtain ⟨inner, htest, -⟩ := Environment.behind_some h
    exact ⟨_, .here (List.append_nil _).symm htest, rfl, nofun⟩
  | error head message =>
    rw [outcome_tryRule] at h
    obtain ⟨inner, htest, -⟩ := Environment.behind_some h
    exact ⟨_, .here (List.append_nil _).symm htest, rfl, nofun⟩
  | tree head rules ih =>
    rw [outcome_tryRule] at h
    obtain ⟨inner, htest, hrules⟩ := Environment.behind_some h
    have hne : (ctx.tryRules inner rules).outcome ≠ .ok none := by
      intro hnone
      cases hnone.symm.trans hrules
    obtain ⟨before, rule, after, rfl, hbefore, hdecides⟩ := tryRules_decided hne
    obtain ⟨last, hlast, hend⟩ := ih rule (by simp) (position ++ [before.length])
      (hdecides.trans hrules)
    exact ⟨last, .child htest hbefore hlast, hend⟩

end WalkContext

namespace Resolver
variable {res : Resolver} {frame : Frame} {stop last : Stop}

/-- The points to which a resolution comes on its way from the root of the rule tree. -/
def ComesTo (res : Resolver) (frame : Frame) (stop : Stop) : Prop :=
  res.context.ComesTo [] (.ofFrame frame) res.ruleSet.root stop

/-- A resolution tries the root, whose conditions are none. -/
theorem outcome_resolveBound (res : Resolver) (frame : Frame) :
    (res.resolveBound frame).outcome =
      Resolution.conclude (res.context.tryRule (.ofFrame frame) res.ruleSet.root).outcome := by
  have hroot : (res.context.tryRule (.ofFrame frame) res.ruleSet.root).outcome =
      (res.context.tryRules (.ofFrame frame) res.ruleSet.rules).outcome := by
    rw [WalkContext.outcome_tryRule]
    rfl
  rw [hroot, resolveBound, WalkContext.outcome_walk]
  rfl

theorem ComesTo.outcome_eq (h : res.ComesTo frame last) (hend : last.IsEnd) :
    (res.resolveBound frame).outcome =
      Resolution.conclude (res.context.enter last.env last.rule).outcome := by
  rw [outcome_resolveBound, WalkContext.ComesTo.outcome_eq h hend]

theorem exists_end {result : Resolution} (h : (res.resolveBound frame).outcome = .ok result) :
    ∃ last, res.ComesTo frame last ∧ last.IsEnd := by
  rw [outcome_resolveBound] at h
  cases htry : (res.context.tryRule (.ofFrame frame) res.ruleSet.root).outcome with
  | error e =>
    rw [htry] at h
    cases h
  | ok found =>
    cases found with
    | none =>
      rw [htry] at h
      cases h
    | some result => exact WalkContext.exists_end [] htry

end Resolver
end EndpointRules
