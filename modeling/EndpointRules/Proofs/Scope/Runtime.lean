import EndpointRules.Proofs.Resolution.Stack
import EndpointRules.Proofs.Resolution.Visits

/-! The stack during a walk is the lexical scope. Whenever an expression is about to be evaluated,
the frames bind the parameters and what the conditions on the way to the expression assign, and
nothing else: the place of the expression tells the names, and the conditions their values. -/

namespace EndpointRules

/-- The conditions that have held on the way to a place, with the position of their rule: all those
of the rules around it, and some of the rule itself. -/
inductive Rule.Passed (root : Rule) (position : List Nat) (held : List Condition) :
    List Nat → List Condition → Prop
  | around {outer further : List Nat} {index : Nat} {rule : Rule} :
      position = outer ++ index :: further → root.at? outer = some rule →
      Passed root position held outer rule.conditions
  | own : Passed root position held position held

/-- A condition that has held on the way to a place assigns the name. -/
def Rule.AssignsBefore (root : Rule) (position : List Nat) (held : List Condition)
    (name : Text) : Prop :=
  ∃ outer conditions, root.Passed position held outer conditions ∧ name ∈ assigned conditions

variable {r : Registry} {root rule : Rule} {frame : Frame} {past : List Evaluation}
  {position outer : List Nat} {held conditions : List Condition} {name : Text}

/-! Places. -/

namespace Rule

/-- The conditions on the way into a rule are those on the way to all that its parent guards. -/
private theorem passed_concat_iff (hrule : root.at? position = some rule) {index : Nat} :
    root.Passed (position ++ [index]) held outer conditions ↔
      root.Passed position rule.conditions outer conditions ∨
        outer = position ++ [index] ∧ conditions = held := by
  constructor
  · rintro (@⟨outer, further, index', around, hsplit, haround⟩ | _)
    · rcases cases_of_concat hsplit with ⟨-, rfl, -⟩ | ⟨further, hposition⟩
      · cases hrule.symm.trans haround
        exact .inl .own
      · exact .inl (.around hposition haround)
    · exact .inr ⟨rfl, rfl⟩
  · rintro ((@⟨outer, further, index', around, hsplit, haround⟩ | _) | ⟨rfl, rfl⟩)
    · have hlonger : position ++ [index] = outer ++ index' :: (further ++ [index]) := by
        rw [hsplit, List.append_assoc]
        rfl
      exact .around hlonger haround
    · exact .around rfl hrule
    · exact .own

private theorem assignsBefore_root : ¬ root.AssignsBefore [] [] name := by
  rintro ⟨outer, conditions, hpassed, hname⟩
  cases hpassed with
  | around hsplit _ => simp at hsplit
  | own => cases hname

private theorem assignsBefore_concat_iff (hrule : root.at? position = some rule) {index : Nat} :
    root.AssignsBefore (position ++ [index]) [] name ↔
      root.AssignsBefore position rule.conditions name := by
  simp only [AssignsBefore, passed_concat_iff hrule, or_and_right, exists_or]
  simp [assigned]

private theorem assignsBefore_append_iff {c : Condition} :
    root.AssignsBefore position (held ++ [c]) name ↔
      root.AssignsBefore position held name ∨ c.assign = some name := by
  constructor
  · rintro ⟨outer, conditions, hpassed, hname⟩
    cases hpassed with
    | around hsplit haround => exact .inl ⟨_, _, .around hsplit haround, hname⟩
    | own =>
      rcases mem_assigned_append.mp hname with hname | hname
      · exact .inl ⟨_, _, .own, hname⟩
      · exact .inr ((mem_assigned_cons.mp hname).resolve_right List.not_mem_nil)
  · rintro (⟨outer, conditions, hpassed, hname⟩ | hassign)
    · cases hpassed with
      | around hsplit haround => exact ⟨_, _, .around hsplit haround, hname⟩
      | own => exact ⟨_, _, .own, mem_assigned_append.mpr (.inl hname)⟩
    · exact ⟨_, _, .own, mem_assigned_append.mpr (.inr (mem_assigned_cons.mpr (.inl hassign)))⟩

/-- A rule at a position stands behind conditions that assign what is assigned on the way to it. -/
private theorem below_of_at? (hrule : root.at? position = some rule) :
    ∃ above, root.Below above rule ∧
      ∀ held name, root.AssignsBefore position held name ↔ name ∈ assigned (above ++ held) := by
  induction position using List.reverseRecOn generalizing rule with
  | nil =>
    rw [at?] at hrule
    cases hrule
    refine ⟨[], .here, fun held name => ?_⟩
    constructor
    · rintro ⟨outer, conditions, hpassed, hname⟩
      cases hpassed with
      | around hsplit _ => simp at hsplit
      | own => exact hname
    · exact fun hname => ⟨_, _, .own, hname⟩
  | append_singleton position index ih =>
    rw [at?_append] at hrule
    obtain ⟨parent, hparent, hchild⟩ := Option.bind_eq_some_iff.mp hrule
    obtain ⟨above, hbelow, hassigns⟩ := ih hparent
    cases parent with
    | endpoint head body => cases hchild
    | error head message => cases hchild
    | tree head rules =>
      rw [at?] at hchild
      obtain ⟨child, hmem, hchild⟩ := Option.bind_eq_some_iff.mp hchild
      rw [at?] at hchild
      cases hchild
      refine ⟨above ++ head.conditions, .child hbelow (List.mem_of_getElem? hmem),
        fun held name => ?_⟩
      rw [mem_assigned_append, ← hassigns head.conditions name]
      constructor
      · rintro ⟨outer, conditions, hpassed, hname⟩
        rcases (passed_concat_iff hparent).mp hpassed with hpassed | ⟨rfl, rfl⟩
        · exact .inl ⟨_, _, hpassed, hname⟩
        · exact .inr hname
      · rintro (⟨outer, conditions, hpassed, hname⟩ | hname)
        · exact ⟨_, _, (passed_concat_iff hparent).mpr (.inl hpassed), hname⟩
        · exact ⟨_, _, .own, hname⟩

end Rule

/-! Bindings. -/

namespace Environment
variable {env : Environment}

private theorem find?_pass (c : Condition) (v : Option Value) :
    (env.pass c v).find? name = if c.assign = some name then some v else env.find? name := by
  unfold pass
  cases c.assign with
  | none => simp
  | some assigned => simp [find?_bind]

/-- The names on a stack are those of the parameters and those assigned on the way. -/
private theorem Arises.isSome_find?_iff (h : env.Arises r root frame past position held) :
    (env.find? name).isSome ↔
      name ∈ Fields.keys frame ∨ root.AssignsBefore position held name := by
  induction h with
  | start =>
    rw [find?_ofFrame, or_iff_left Rule.assignsBefore_root]
    exact Fields.hasKey_iff_mem_keys name frame
  | enter index hparent _ ih =>
    rw [find?_push, ih]
    exact or_congr_right (Rule.assignsBefore_concat_iff hparent).symm
  | pass _ _ _ _ _ _ ih =>
    rw [Rule.assignsBefore_append_iff, ← or_assoc, ← ih, find?_pass]
    split
    · next hassign => simp [hassign]
    · next hassign => simp [hassign]

/-- There is a frame for each rule on the way, and the frame of the parameters. -/
private theorem Arises.depth_eq (h : env.Arises r root frame past position held) :
    env.depth = position.length + 1 := by
  induction h with
  | start => rfl
  | enter index _ _ ih =>
    rw [List.length_append, List.length_singleton, ← ih]
    rfl
  | @pass _ _ env _ c _ _ _ _ _ _ _ _ ih =>
    rw [← ih]
    obtain ⟨inner, parameters⟩ := env
    unfold Environment.pass bind
    cases c.assign <;> cases inner <;> rfl

private theorem isSome_find?_of_mem_frames {f : Frame} (hf : f ∈ env.frames)
    (hname : name ∈ Fields.keys f) : (env.find? name).isSome := by
  rw [find?, List.findSome?_isSome_iff]
  exact ⟨f, hf, (Fields.hasKey_iff_mem_keys name f).mpr hname⟩

end Environment

/-- A name has the value that a condition had, which stands at a position behind others, when it was
evaluated. -/
def Environment.HasFrom (r : Registry) (past : List Evaluation) (position : List Nat)
    (before : List Condition) (c : Condition) (name : Text) (env : Environment) : Prop :=
  ∃ binding ∈ past, ∃ v, binding.position = position ∧ binding.held = before ∧
    binding.expr = c.expr ∧ (binding.expr.eval r binding.env).outcome = .ok v ∧
    Value.isTruthy v = true ∧ env.find? name = some v

/-- What the walk finds as it is about to evaluate an expression, after earlier evaluations. -/
structure Evaluation.Lexical (r : Registry) (rs : RuleSet) (frame : Frame)
    (earlier : List Evaluation) (m : Evaluation) : Prop where
  place : ∃ rule e, rs.root.at? m.position = some rule ∧ rule.Has m.held e ∧ m.expr.Within e
  /-- The names are those of the parameters and those that the conditions on the way assign. -/
  isBound_iff : ∀ name, m.env.isBound name = true ↔
    name ∈ rs.parameters.map Parameter.name ∨ rs.root.AssignsBefore m.position m.held name
  disjoint : m.env.frames.Pairwise fun f g => ∀ name ∈ Fields.keys f, name ∉ Fields.keys g
  depth_eq : m.env.depth = m.position.length + 1
  parameter_eq : ∀ name ∈ rs.parameters.map Parameter.name,
    m.env.find? name = Fields.get? name frame
  /-- A name that a condition on the way assigns still has the value that the condition had. -/
  assigned_eq : ∀ outer before c rest name,
    rs.root.Passed m.position m.held outer (before ++ c :: rest) → c.assign = some name →
    m.env.HasFrom r earlier outer before c name

/-! Loaded rule sets. -/

namespace RuleSet.Loaded
variable {rs : RuleSet} {env : Environment} {document : Json}

section
variable (h : Loaded r document rs)
  (hframe : ∀ name, name ∈ Fields.keys frame ↔ name ∈ rs.parameters.map Parameter.name)
include h hframe

/-- No condition assigns a name that the stack binds. -/
private theorem find?_eq_none (henv : env.Arises r rs.root frame past position held)
    (hrule : rs.root.at? position = some rule) {c : Condition} {rest : List Condition}
    (hsplit : rule.conditions = held ++ c :: rest) (hassign : c.assign = some name) :
    env.find? name = none := by
  obtain ⟨above, hbelow, hassigns⟩ := Rule.below_of_at? hrule
  have hsound := not_or.mp (root_fits_iff.mp h.root_fits)
  rw [← Option.not_isSome_iff_eq_none, henv.isSome_find?_iff, hframe, hassigns,
    mem_assigned_append]
  intro htaken
  exact (not_or.mp hsound.2).1 ⟨above, rule, held, c, rest, name, hbelow, hsplit, hassign, htaken⟩

/-- What the stack binds stays as it is behind a condition. -/
private theorem find?_pass_of_some (henv : env.Arises r rs.root frame past position held)
    (hrule : rs.root.at? position = some rule) {c : Condition} {rest : List Condition}
    (hsplit : rule.conditions = held ++ c :: rest) (v : Option Value) {w : Option Value}
    (hfound : env.find? name = some w) : (env.pass c v).find? name = some w := by
  rw [Environment.find?_pass, if_neg, hfound]
  intro hassign
  cases (h.find?_eq_none hframe henv hrule hsplit hassign).symm.trans hfound

private theorem disjoint_frames (henv : env.Arises r rs.root frame past position held) :
    env.frames.Pairwise fun f g => ∀ name ∈ Fields.keys f, name ∉ Fields.keys g := by
  induction henv with
  | start => exact List.pairwise_singleton _ _
  | enter index _ _ ih =>
    refine List.pairwise_cons.mpr ⟨fun g _ name hname => ?_, ih⟩
    cases hname
  | @pass position held env rule c rest v hrule hsplit henv _ _ _ ih =>
    cases hassign : c.assign with
    | none =>
      rw [Environment.pass, hassign]
      exact ih
    | some name =>
      have hnew := h.find?_eq_none hframe henv hrule hsplit hassign
      have hfree {g : Frame} (hg : g ∈ env.frames) : name ∉ Fields.keys g := fun hname => by
        have hbound := Environment.isSome_find?_of_mem_frames hg hname
        rw [hnew] at hbound
        cases hbound
      rw [Environment.pass, hassign]
      obtain ⟨inner, parameters⟩ := env
      cases inner with
      | nil => exact List.pairwise_singleton _ _
      | cons first others =>
        obtain ⟨hfirst, hothers⟩ := List.pairwise_cons.mp ih
        refine List.pairwise_cons.mpr ⟨fun g hg other hother => ?_, hothers⟩
        rw [Fields.keys_put, if_neg (hfree List.mem_cons_self), List.mem_append,
          List.mem_singleton] at hother
        rcases hother with hother | rfl
        · exact hfirst g hg other hother
        · exact hfree (List.mem_cons_of_mem _ hg)

private theorem parameter_eq (henv : env.Arises r rs.root frame past position held)
    {w : Option Value} (hname : Fields.get? name frame = some w) : env.find? name = some w := by
  induction henv with
  | start => rwa [Environment.find?_ofFrame]
  | enter _ _ _ ih => exact ih
  | pass hrule hsplit henv _ _ _ ih => exact h.find?_pass_of_some hframe henv hrule hsplit _ ih

private theorem assigned_eq (henv : env.Arises r rs.root frame past position held)
    {before rest : List Condition} {c : Condition}
    (hpassed : rs.root.Passed position held outer (before ++ c :: rest))
    (hassign : c.assign = some name) : env.HasFrom r past outer before c name := by
  generalize hall : before ++ c :: rest = conditions at hpassed
  induction henv generalizing rest conditions with
  | start =>
    cases hpassed with
    | around hsplit _ => simp at hsplit
    | own => simp at hall
  | enter index hparent _ ih =>
    rcases (Rule.passed_concat_iff hparent).mp hpassed with hpassed | ⟨-, hnone⟩
    · exact ih _ hall hpassed
    · simp [← hall] at hnone
  | @pass position held env rule last later v hrule hsplit henv hmem hv htrue ih =>
    have hkept (hfrom : env.HasFrom r past outer before c name) :
        (env.pass last v).HasFrom r past outer before c name := by
      obtain ⟨binding, hbinding, w, hposition, hbefore, hexpr, hw, hwtrue, hfound⟩ := hfrom
      exact ⟨binding, hbinding, w, hposition, hbefore, hexpr, hw, hwtrue,
        h.find?_pass_of_some hframe henv hrule hsplit v hfound⟩
    cases hpassed with
    | around hsplit haround => exact hkept (ih _ hall (.around hsplit haround))
    | own =>
      -- The condition is the last one that has held, or one before it.
      rcases cases_of_concat hall.symm with ⟨-, rfl, rfl⟩ | ⟨rest, hheld⟩
      · refine ⟨_, hmem, v, rfl, rfl, rfl, hv, htrue, ?_⟩
        rw [Environment.find?_pass, if_pos hassign]
      · exact hkept (ih _ hheld.symm .own)

end

end RuleSet.Loaded

private theorem Expr.Reaches.within {env : Environment} {e sub : Expr} (h : e.Reaches r env sub) :
    sub.Within e := by
  induction h with
  | here e => exact .here
  | item _ _ ih => exact .item (by simp) ih
  | field _ _ ih => exact Within.field (List.mem_append_right _ List.mem_cons_self) ih
  | argument _ _ ih => exact .argument (by simp) ih

namespace Resolver
variable {res : Resolver} {document : Json}

/-- A resolution of a loaded rule set can be done on one stack of frames, which it leaves with the
parameters only, however it ends. Whenever an expression or a part of one is about to be evaluated,
the stack is the lexical scope of its place, and what was bound on the way has its value still. -/
theorem walkOn_lexical (h : res.Serves document)
    (hframe : ∀ name, name ∈ Fields.keys frame ↔
      name ∈ res.ruleSet.parameters.map Parameter.name) :
    ∃ outcome past, res.context.walkOn frame res.ruleSet.rules =
        (outcome.mapError .eval, ⟨past, .ofFrame frame⟩) ∧
      (res.resolveBound frame).outcome = Resolution.conclude outcome ∧
      ∀ earlier m later sub, past = earlier ++ m :: later →
        m.expr.Reaches res.registry m.env sub →
        Evaluation.Lexical res.registry res.ruleSet frame earlier { m with expr := sub } := by
  have hstart : StackState.Stands res.context.registry res.ruleSet.root frame
      ⟨[], .ofFrame frame⟩ [] [] (.tree ⟨Rule.rootPath, [], none⟩ res.ruleSet.rules) :=
    ⟨by rw [Rule.at?]; rfl, .start⟩
  obtain ⟨past, hwalk, -, hhistory⟩ := WalkContext.tryRulesOn_keeps ⟨Rule.rootPath, [], none⟩ hstart
  refine ⟨_, past, hwalk, ?_, fun earlier m later sub hsplit hsub => ?_⟩
  · rw [resolveBound, WalkContext.outcome_walk]
    rfl
  · have hempty : History res.context.registry res.ruleSet.root frame [] := by
      intro earlier m later hsplit
      simp at hsplit
    obtain ⟨⟨rule, hrule, hhas⟩, harises⟩ := hhistory hempty earlier m later hsplit
    have hloaded := h.loaded
    rw [← h.registry_eq] at hloaded
    constructor
    case place => exact ⟨rule, m.expr, hrule, hhas, hsub.within⟩
    case isBound_iff =>
      intro name
      rw [Environment.isBound, harises.isSome_find?_iff, hframe]
    case disjoint => exact hloaded.disjoint_frames hframe harises
    case depth_eq => exact harises.depth_eq
    case parameter_eq =>
      intro name hname
      cases hget : Fields.get? name frame with
      | none => exact absurd ((hframe name).mpr hname) ((Fields.get?_eq_none_iff _ _).mp hget)
      | some w => exact hloaded.parameter_eq hframe harises hget
    case assigned_eq =>
      exact fun outer before c rest name hpassed hassign =>
        hloaded.assigned_eq hframe harises hpassed hassign

theorem walkOn_lexical_sample :
    (∀ name, name ∈ Fields.keys (sampleFrame "isIp") ↔
      name ∈ sampleResolver.ruleSet.parameters.map Parameter.name) ∧
    ∃ outcome first second third,
      sampleResolver.context.walkOn (sampleFrame "isIp") sampleResolver.ruleSet.rules =
        (outcome, ⟨[first, second, third], .ofFrame (sampleFrame "isIp")⟩) ∧
      third.Lexical .standard sampleRuleSet (sampleFrame "isIp") [first, second] := by
  have hkeys : Fields.keys (sampleFrame "isIp") =
      sampleResolver.ruleSet.parameters.map Parameter.name := by
    decide +kernel
  have hframe (name : Text) : name ∈ Fields.keys (sampleFrame "isIp") ↔
      name ∈ sampleResolver.ruleSet.parameters.map Parameter.name := by
    rw [hkeys]
  obtain ⟨outcome, past, hwalk, -, hlexical⟩ := walkOn_lexical sampleResolver_serves hframe
  have hthree : (sampleResolver.context.walkOn (sampleFrame "isIp")
      sampleResolver.ruleSet.rules).2.past.length = 3 := by
    decide +kernel
  rw [hwalk] at hthree
  obtain ⟨first, second, third, rfl⟩ := List.length_eq_three.mp hthree
  exact ⟨hframe, _, first, second, third, hwalk,
    hlexical [first, second] third [] third.expr rfl (.here _)⟩

end Resolver
end EndpointRules
