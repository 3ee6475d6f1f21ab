import EndpointRules.Proofs.Resolution.Notes
import EndpointRules.Proofs.Resolution.Trail

/-! The trace of a resolution. Its lines follow the order of the document, are nested like the
rules, and end as the resolution does. -/

namespace EndpointRules

namespace WalkContext
variable {ctx : WalkContext} {rule : Rule} {position : List Nat} {index : Nat}

/-- The lines of a run about a rule, put in front of those about the rules behind it if the run
gives nothing, and by themselves otherwise, are the lines about these rules. -/
def StartsTrail (rule : Rule) (position : List Nat) (index : Nat)
    (outcome : Except EvalError (Option Resolution)) (lines : List Event) : Prop :=
  (outcome = .ok none → ∀ rest through more, Trail position (index + 1) rest through more →
    Trail position index (rule :: rest) through (lines ++ more)) ∧
  (outcome ≠ .ok none → ∀ rest, Trail position index (rule :: rest) false lines)

/-- Rules that are tried one after another leave the trail to which each of them contributes. -/
private theorem trail_tryRules {rules : List Rule} (env : Environment)
    (h : ∀ rule ∈ rules, ∀ (env : Environment) (index : Nat), rule.Placed (position ++ [index]) →
      StartsTrail rule position index (ctx.tryRule env rule).outcome (ctx.tryRule env rule).notes)
    (hp : Rule.AllPlaced position index rules) :
    ∃ through, Trail position index rules through (ctx.tryRules env rules).notes ∧
      (through = true ↔ (ctx.tryRules env rules).outcome = .ok none) := by
  induction rules generalizing index with
  | nil => exact ⟨true, .done, fun _ => rfl, fun _ => rfl⟩
  | cons rule rest ih =>
    obtain ⟨hrule, hrest⟩ := List.forall_mem_cons.mp h
    obtain ⟨through, htrail, hthrough⟩ := ih hrest hp.2
    obtain ⟨hnone, hother⟩ := hrule env.push index hp.1
    by_cases hgives : (ctx.tryRule env.push rule).outcome = .ok none
    · refine ⟨through, ?_, ?_⟩
      · rw [notes_tryRules_of_none rest hgives]
        exact hnone hgives rest through _ htrail
      · rw [hthrough, outcome_tryRules_cons, hgives]
        rfl
    · refine ⟨false, ?_, by rintro ⟨⟩, fun hrules => absurd ?_ hgives⟩
      · rw [notes_tryRules_of_ne_none rest hgives]
        exact hother hgives rest
      · exact tryRules_none_iff.mp hrules rule List.mem_cons_self

/-- A rule that is tried starts a trail if it does so once its conditions hold. -/
private theorem startsTrail_of_holds (hs : ctx.registry.Silent) (ht : ctx.trace = true)
    {env : Environment} (hp : rule.Placed (position ++ [index]))
    (h : ∀ inner, StartsTrail rule position index (ctx.enter inner rule).outcome
      (.matched rule.kind (rulePath (position ++ [index])) :: (ctx.finish inner rule).notes)) :
    StartsTrail rule position index (ctx.tryRule env rule).outcome
      (ctx.tryRule env rule).notes := by
  have hpath : rule.path = rulePath (position ++ [index]) := by
    rw [← List.append_nil (position ++ [index])]
    exact hp.path_at? (by rw [Rule.at?])
  rw [outcome_tryRule]
  cases htest : env.test ctx.registry rule.conditions with
  | error e =>
    rw [Environment.behind_of_error htest, notes_of_error hs ht htest]
    exact ⟨by rintro ⟨⟩, fun _ _ => .raised⟩
  | ok found =>
    cases found with
    | none =>
      obtain ⟨n, hn⟩ := notes_of_fails hs ht htest
      rw [Environment.behind_of_fails htest, hn, hpath]
      exact ⟨fun _ _ _ _ hmore => .failed n hmore, fun hne => absurd rfl hne⟩
    | some inner =>
      rw [Environment.behind_of_holds htest, notes_of_holds hs ht htest, hpath]
      exact h inner

private theorem startsTrail_of_kind (hs : ctx.registry.Silent) (hk : rule.kind ≠ .tree)
    (inner : Environment) : StartsTrail rule position index (ctx.enter inner rule).outcome
      (.matched rule.kind (rulePath (position ++ [index])) :: (ctx.finish inner rule).notes) := by
  rw [hs.notes_finish hk]
  exact ⟨fun hnone => absurd hnone (enter_ne_none hk inner), fun _ _ => .ended hk⟩

/-- Whatever rule is tried, its lines start a trail. -/
private theorem startsTrail (hs : ctx.registry.Silent) (ht : ctx.trace = true) (env : Environment)
    (hp : rule.Placed (position ++ [index])) :
    StartsTrail rule position index (ctx.tryRule env rule).outcome
      (ctx.tryRule env rule).notes := by
  induction rule using Rule.ind generalizing env position index with
  | endpoint head body => exact startsTrail_of_holds hs ht hp (startsTrail_of_kind hs nofun)
  | error head message => exact startsTrail_of_holds hs ht hp (startsTrail_of_kind hs nofun)
  | tree head rules ih =>
    refine startsTrail_of_holds hs ht hp fun inner => ?_
    have hhead : head.path = rulePath (position ++ [index]) := hp.1
    obtain ⟨through, htrail, hthrough⟩ := trail_tryRules inner
      (fun rule hrule env index => ih rule hrule env) hp.2
    constructor
    · intro hnone rest through' more hmore
      rw [notes_finish_of_none ht hnone, hhead, List.cons_append, List.append_assoc]
      rw [hthrough.mpr hnone] at htrail
      exact .exhausted htrail hmore
    · intro hne rest
      rw [notes_finish_of_ne_none hne]
      have hthrough : through = false := by
        rw [← Bool.not_eq_true, hthrough]
        exact hne
      rw [hthrough] at htrail
      exact .inside htrail

/-! The line of the end. -/

private theorem ComesTo.matched_mem (hs : ctx.registry.Silent) (ht : ctx.trace = true)
    {env : Environment}
    {last : Stop} (h : ctx.ComesTo position env rule last) (hend : last.IsEnd) :
    .matched last.rule.kind last.rule.path ∈ (ctx.tryRule env rule).notes := by
  induction h with
  | @here position env rule held rest inner hsplit hheld =>
    have hall : held = rule.conditions := hend.held_eq
    rw [hall] at hheld
    rw [notes_of_holds hs ht hheld]
    exact List.mem_cons_self
  | @child position env head before rule after inner last htest hbefore hchild ih =>
    have hrules : (ctx.tryRules inner (before ++ rule :: after)).outcome ≠ .ok none := by
      intro hnone
      exact hchild.outcome_ne_none hend (tryRules_none_iff.mp hnone rule (by simp))
    have hfirst : (ctx.tryRules inner (before ++ rule :: after)).notes =
        (ctx.tryRules inner before).notes ++ (ctx.tryRule inner.push rule).notes := by
      rw [notes_tryRules_append _ hbefore,
        notes_tryRules_of_ne_none after (hchild.outcome_ne_none hend)]
    rw [notes_of_holds hs ht htest, notes_finish_of_ne_none hrules, hfirst]
    exact List.mem_cons_of_mem _ (List.mem_append_right _ (ih hend))

/-- Rules are only reported as matched, and anything below them reported, when they hold. -/
private theorem holds_of_matched (hs : ctx.registry.Silent) (ht : ctx.trace = true)
    {env : Environment}
    {kind : RuleKind} {path : Text} (h : .matched kind path ∈ (ctx.tryRule env rule).notes) :
    ∃ inner, env.test ctx.registry rule.conditions = .ok (some inner) ∧
      (kind = rule.kind ∧ path = rule.path ∨
        .matched kind path ∈ (ctx.finish inner rule).notes) := by
  cases htest : env.test ctx.registry rule.conditions with
  | error e =>
    rw [notes_of_error hs ht htest] at h
    cases h
  | ok found =>
    cases found with
    | none =>
      obtain ⟨n, hn⟩ := notes_of_fails hs ht htest
      rw [hn] at h
      cases List.mem_singleton.mp h
    | some inner =>
      rw [notes_of_holds hs ht htest] at h
      refine ⟨inner, rfl, ?_⟩
      obtain h | h := List.mem_cons.mp h
      · exact .inl (Event.matched.inj h)
      · exact .inr h

private theorem exists_end_of_kind (hs : ctx.registry.Silent) (ht : ctx.trace = true)
    {kind : RuleKind} {path : Text} (hrule : rule.kind ≠ .tree) (position : List Nat)
    (env : Environment) (h : .matched kind path ∈ (ctx.tryRule env rule).notes) :
    ∃ last, ctx.ComesTo position env rule last ∧ last.IsEnd ∧ last.rule.kind = kind ∧
      last.rule.path = path := by
  obtain ⟨inner, htest, ⟨rfl, rfl⟩ | hmem⟩ := holds_of_matched hs ht h
  · exact ⟨_, .here (List.append_nil _).symm htest, ⟨rfl, hrule⟩, rfl, rfl⟩
  · rw [hs.notes_finish hrule] at hmem
    cases hmem

/-- The rule of a line that an endpoint or an error is matched is an end of the walk. -/
private theorem exists_end_of_matched (hs : ctx.registry.Silent) (ht : ctx.trace = true)
    {kind : RuleKind}
    {path : Text} (hk : kind ≠ .tree) (position : List Nat) (env : Environment)
    (h : .matched kind path ∈ (ctx.tryRule env rule).notes) :
    ∃ last, ctx.ComesTo position env rule last ∧ last.IsEnd ∧ last.rule.kind = kind ∧
      last.rule.path = path := by
  induction rule using Rule.ind generalizing position env with
  | endpoint head body => exact exists_end_of_kind hs ht (by nofun) position env h
  | error head message => exact exists_end_of_kind hs ht (by nofun) position env h
  | tree head rules ih =>
    obtain ⟨inner, htest, ⟨htree, -⟩ | hmem⟩ := holds_of_matched hs ht h
    · exact absurd htree hk
    · obtain hexhausted | hmem := mem_notes_finish ht hmem
      · cases hexhausted
      · obtain ⟨before, rule, after, rfl, hbefore, hmem⟩ := mem_notes_tryRules hmem
        obtain ⟨last, hlast, hend⟩ :=
          ih rule (by simp) (position ++ [before.length]) inner.push hmem
        exact ⟨last, .child htest hbefore hlast, hend⟩

end WalkContext

namespace Trail
variable {rules : List Rule} {through : Bool} {notes : List Event} {e : Event}

/-- The line behind the trail among the rules of the root: one about the root, if the trail comes
through all of them. -/
def closing (through : Bool) : List Event :=
  if through then [.exhausted Rule.rootPath] else []

private theorem eq_of_mem_closing (he : e ∈ closing through) : e = .exhausted Rule.rootPath := by
  cases through with
  | true => exact List.mem_singleton.mp he
  | false => cases he

/-- Every line about a rule is logged by the resolver. -/
private theorem logLine?_of_rule? {path : Text} (h : e.rule? = some path) :
    ∃ message, e.logLine? = some ⟨.debug, "pyendpoints.resolver", message⟩ := by
  cases e with
  | failed | matched | exhausted => exact ⟨_, rfl⟩
  | _ => cases h

private theorem logged (h : Trail [] 0 rules through notes) : ∀ e ∈ notes ++ closing through,
    ∃ message, e.logLine? = some ⟨.debug, "pyendpoints.resolver", message⟩ := by
  intro e he
  obtain he | he := List.mem_append.mp he
  · obtain ⟨_, _, -, hrule⟩ := h.exists_rule he
    exact logLine?_of_rule? hrule
  · rw [eq_of_mem_closing he]
    exact logLine?_of_rule? rfl

/-- The rules that fail or are matched are rules below the root, in the order of the document. -/
private theorem in_order (h : Trail [] 0 rules through notes) : ∃ subjects : List (List Nat),
    (notes ++ closing through).filterMap Event.subject? = subjects.map rulePath ∧
    subjects.Pairwise (· < ·) ∧
    ∀ subject ∈ subjects, subject ≠ [] ∧ ∃ rule, (Rule.root rules).at? subject = some rule := by
  obtain ⟨subjects, hsubjects, horder, hfound⟩ := h.subjects
  have hnone : (closing through).filterMap Event.subject? = [] := by
    rw [List.filterMap_eq_nil_iff]
    intro e he
    rw [eq_of_mem_closing he]
    rfl
  refine ⟨subjects, ?_, horder, fun subject hsubject => ?_⟩
  · rw [List.filterMap_append, hsubjects, hnone, List.append_nil]
    rfl
  · obtain ⟨i, further, rule, rfl, hrule⟩ := hfound subject hsubject
    refine ⟨List.cons_ne_nil _ _, rule, ?_⟩
    rw [Rule.root, Rule.at?, Nat.zero_add]
    exact hrule

private theorem nested_closed (h : Trail [] 0 rules through notes) :
    ∀ before e after, notes ++ closing through = before ++ e :: after → NestedAt [] before e := by
  refine forall_split_append h.nested fun before e after hsplit inner i he => ?_
  have hmem : e ∈ closing through := by simp [hsplit]
  rw [eq_of_mem_closing hmem] at he
  cases he

/-- A line about an endpoint or an error that is matched is the last one of all. -/
private theorem last_matched (h : Trail [] 0 rules through notes) {kind : RuleKind} {path : Text}
    (hk : kind ≠ .tree) (hmem : .matched kind path ∈ notes ++ closing through) :
    (notes ++ closing through).getLast? = some (.matched kind path) := by
  obtain hmem | hmem := List.mem_append.mp hmem
  · obtain ⟨rfl, hlast⟩ := h.last_of_end hk hmem
    rw [closing, if_neg Bool.false_ne_true, List.append_nil, hlast]
  · cases eq_of_mem_closing hmem

private theorem exhausted_last_iff (h : Trail [] 0 rules through notes) :
    (notes ++ closing through).getLast? = some (.exhausted Rule.rootPath) ↔ through = true := by
  cases through with
  | true => simp [closing]
  | false =>
    refine iff_of_false (fun hlast => ?_) Bool.false_ne_true
    rw [closing, if_neg Bool.false_ne_true, List.append_nil] at hlast
    exact h.exhausted_not_mem (List.mem_of_getLast? hlast)

end Trail

namespace Resolver
variable {res : Resolver} {document : Json} {frame : Frame}

/-- The same resolver with tracing switched on or off. -/
def traced (res : Resolver) (trace : Bool) : Resolver :=
  { res with options := { res.options with trace := trace } }

/-- What the lines of a traced resolution tell. Positions are ordered like the rules in the
document, where a rule comes before those below it. -/
structure TracedBy (res : Resolver) (frame : Frame) (lines : List Event) : Prop where
  /-- Every event is a line of the resolver. -/
  logged : ∀ e ∈ lines, ∃ message, e.logLine? = some ⟨.debug, "pyendpoints.resolver", message⟩
  /-- Rules below the root fail or are matched at most once, in the order of the document. -/
  in_order : ∃ subjects : List (List Nat),
    lines.filterMap Event.subject? = subjects.map rulePath ∧ subjects.Pairwise (· < ·) ∧
    ∀ subject ∈ subjects, subject ≠ [] ∧
      ∃ rule, res.ruleSet.root.at? subject = some rule ∧ rule.path = rulePath subject
  /-- Below the children of the root, this happens while the rule above is matched. -/
  nested : ∀ before e after position index, lines = before ++ e :: after →
    e.subject? = some (rulePath (position ++ [index])) → position ≠ [] →
    .matched .tree (rulePath position) ∈ before ∧ .exhausted (rulePath position) ∉ before
  /-- An endpoint or an error is matched when the walk comes to an end. -/
  end_reached : (∃ kind path, kind ≠ .tree ∧ .matched kind path ∈ lines) ↔
    ∃ last, res.ComesTo frame last ∧ last.IsEnd
  /-- Its line is the last one, and its expressions give the outcome. -/
  end_last : ∀ kind path, kind ≠ .tree → .matched kind path ∈ lines →
    lines.getLast? = some (.matched kind path) ∧
    ∃ last, res.ComesTo frame last ∧ last.IsEnd ∧ last.rule.kind = kind ∧ last.rule.path = path ∧
      (res.resolveBound frame).outcome =
        Resolution.conclude (res.context.enter last.env last.rule).outcome
  /-- A result comes with such a line. -/
  result_matched : ∀ result, (res.resolveBound frame).outcome = .ok result →
    ∃ kind path, kind ≠ .tree ∧ .matched kind path ∈ lines
  /-- The root is exhausted when the resolution ends without a result. -/
  exhausted_last : lines.getLast? = some (.exhausted Rule.rootPath) ↔
    (res.resolveBound frame).outcome = .error .unresolved

private theorem resolveBound_unresolved_iff (res : Resolver) (frame : Frame) :
    (res.resolveBound frame).outcome = .error .unresolved ↔
      (res.context.tryRules (.ofFrame frame) res.ruleSet.rules).outcome = .ok none :=
  WalkContext.walk_unresolved_iff

/-- The lines of a traced resolution are a trail among the rules of the root and the line behind
it. The trail comes through all of these rules when the resolution ends without a result. -/
private theorem exists_trail (hs : res.registry.Silent) (ht : res.options.trace = true)
    (hp : res.ruleSet.root.Placed []) (frame : Frame) :
    ∃ through notes, Trail [] 0 res.ruleSet.rules through notes ∧
      (res.resolveBound frame).notes = notes ++ Trail.closing through ∧
      (through = true ↔ (res.resolveBound frame).outcome = .error .unresolved) := by
  have hstarts : ∀ rule ∈ res.ruleSet.rules, ∀ env index, rule.Placed ([] ++ [index]) →
      WalkContext.StartsTrail rule [] index (res.context.tryRule env rule).outcome
        (res.context.tryRule env rule).notes :=
    fun _ _ env _ hplaced => WalkContext.startsTrail hs ht env hplaced
  obtain ⟨through, htrail, hthrough⟩ :=
    WalkContext.trail_tryRules (.ofFrame frame) hstarts hp.2
  refine ⟨through, _, htrail, ?_, by rw [hthrough, resolveBound_unresolved_iff]⟩
  rw [notes_resolveBound, RuleSet.root, Rule.root]
  cases through with
  | true => exact WalkContext.notes_finish_of_none ht (hthrough.mp rfl)
  | false =>
    have hsome := mt hthrough.mpr Bool.false_ne_true
    rw [WalkContext.notes_finish_of_ne_none hsome]
    exact (List.append_nil _).symm

/-- That an endpoint or an error is matched is a line about the root as well. -/
private theorem matched_mem_iff (hs : res.registry.Silent) (ht : res.options.trace = true)
    (frame : Frame)
    {kind : RuleKind} (hk : kind ≠ .tree) (path : Text) :
    .matched kind path ∈ (res.resolveBound frame).notes ↔
      .matched kind path ∈ (res.context.tryRule (.ofFrame frame) res.ruleSet.root).notes := by
  have hroot : (Environment.ofFrame frame).test res.context.registry res.ruleSet.root.conditions =
      .ok (some (.ofFrame frame)) := rfl
  rw [notes_resolveBound, WalkContext.notes_of_holds hs ht hroot, List.mem_cons]
  constructor
  · exact .inr
  · rintro (h | h)
    · exact absurd (Event.matched.inj h).1 hk
    · exact h

/-- The rule of a line that an endpoint or an error is matched is the end of the walk. -/
private theorem exists_end_of_matched (hs : res.registry.Silent) (ht : res.options.trace = true)
    {frame : Frame} {kind : RuleKind} {path : Text} (hk : kind ≠ .tree)
    (hmem : .matched kind path ∈ (res.resolveBound frame).notes) :
    ∃ last, res.ComesTo frame last ∧ last.IsEnd ∧ last.rule.kind = kind ∧ last.rule.path = path :=
  WalkContext.exists_end_of_matched hs ht hk [] _ ((matched_mem_iff hs ht frame hk path).mp hmem)

/-- The end of a walk is reported as matched. -/
private theorem exists_matched_of_end (hs : res.registry.Silent) (ht : res.options.trace = true)
    {frame : Frame} {last : Stop} (hcomes : res.ComesTo frame last) (hend : last.IsEnd) :
    ∃ kind path, kind ≠ .tree ∧ .matched kind path ∈ (res.resolveBound frame).notes :=
  ⟨_, _, hend.kind_ne, (matched_mem_iff hs ht frame hend.kind_ne _).mpr
    (WalkContext.ComesTo.matched_mem hs ht hcomes hend)⟩

private theorem tracedBy_of_placed (hs : res.registry.Silent) (ht : res.options.trace = true)
    (hp : res.ruleSet.root.Placed []) (frame : Frame) :
    res.TracedBy frame (res.resolveBound frame).notes := by
  obtain ⟨through, notes, htrail, hnotes, hthrough⟩ := exists_trail hs ht hp frame
  constructor
  case logged => exact hnotes ▸ htrail.logged
  case in_order =>
    obtain ⟨subjects, hsubjects, horder, hfound⟩ := htrail.in_order
    refine ⟨subjects, hnotes ▸ hsubjects, horder, fun subject hsubject => ?_⟩
    obtain ⟨hne, rule, hrule⟩ := hfound subject hsubject
    exact ⟨hne, rule, hrule, hp.path_at? hrule⟩
  case nested =>
    intro before e after position index hsplit he hne
    exact htrail.nested_closed before e after (hnotes ▸ hsplit) position index he hne
  case end_reached =>
    constructor
    · rintro ⟨kind, path, hk, hmem⟩
      obtain ⟨last, hcomes, hend, -⟩ := exists_end_of_matched hs ht hk hmem
      exact ⟨last, hcomes, hend⟩
    · rintro ⟨last, hcomes, hend⟩
      exact exists_matched_of_end hs ht hcomes hend
  case end_last =>
    intro kind path hk hmem
    obtain ⟨last, hcomes, hend, hkind, hpath⟩ := exists_end_of_matched hs ht hk hmem
    refine ⟨?_, last, hcomes, hend, hkind, hpath, hcomes.outcome_eq hend⟩
    rw [hnotes] at hmem ⊢
    exact htrail.last_matched hk hmem
  case result_matched =>
    intro result hresult
    obtain ⟨last, hcomes, hend⟩ := exists_end hresult
    exact exists_matched_of_end hs ht hcomes hend
  case exhausted_last => rw [hnotes, htrail.exhausted_last_iff, hthrough]

/-- Tracing a resolution of a loaded rule set changes nothing but the log. Without it nothing is
logged, and with it the log tells how the rules were tried and how this ended. -/
theorem resolveBound_traced (h : res.Serves document) (frame : Frame) :
    (∀ trace, ((res.traced trace).resolveBound frame).outcome =
      (res.resolveBound frame).outcome) ∧
    ((res.traced false).resolveBound frame).notes = [] ∧
    (res.traced true).TracedBy frame ((res.traced true).resolveBound frame).notes := by
  have hs : res.registry.Silent := h.registry_eq ▸ Registry.standard_silent
  have hs' : (res.traced true).registry.Silent := hs
  refine ⟨fun trace => ?_, ?_, ?_⟩
  · rw [outcome_resolveBound, outcome_resolveBound]
    exact congrArg Resolution.conclude
      (WalkContext.outcome_tryRule_trace trace res.options.trace res.ruleSet.root)
  · rw [notes_resolveBound]
    exact WalkContext.notes_finish_of_no_trace hs rfl _ _
  · exact tracedBy_of_placed hs' rfl h.loaded.placed frame

theorem resolveBound_traced_sample :
    ((sampleResolver.traced true).resolveBound (sampleFrame "isIp")).notes =
      [.matched .tree "rules[0]", .matched .endpoint "rules[0].rules[0]"] ∧
    (sampleResolver.traced true).TracedBy (sampleFrame "isIp")
      ((sampleResolver.traced true).resolveBound (sampleFrame "isIp")).notes := by
  have hnotes : ((sampleResolver.traced true).resolveBound (sampleFrame "isIp")).notes =
      [.matched .tree "rules[0]", .matched .endpoint "rules[0].rules[0]"] := by
    decide +kernel
  exact ⟨hnotes, (resolveBound_traced sampleResolver_serves (sampleFrame "isIp")).2.2⟩

end Resolver
end EndpointRules
