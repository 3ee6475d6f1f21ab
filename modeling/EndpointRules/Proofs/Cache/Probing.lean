import EndpointRules.Proofs.Cache.Records
import EndpointRules.Proofs.Resolution.Calls

/-! What a recording function is called with, by a resolver and through a cache. A call that finds
its result in the cache evaluates nothing, and any other call evaluates what the resolver does. -/

namespace EndpointRules

/-- Binding notes deprecated parameters only. -/
private theorem recorded_bindParameters (parameters : List Parameter)
    (arguments builtIns : List (Text × Argument)) (rejectUnknown : Bool) :
    (bindParameters parameters arguments builtIns rejectUnknown).recorded = [] := by
  have hall (parameters : List Parameter) :
      (bindAll arguments builtIns parameters).recorded = [] := by
    induction parameters with
    | nil => rfl
    | cons p rest ih =>
      refine Noted.recorded_bind_nil ?_ fun v => Noted.recorded_bind_nil ih fun _ => rfl
      have hnotes : (p.deprecationNotes arguments).filterMap Event.recorded? = [] := by
        unfold Parameter.deprecationNotes
        split
        · split <;> rfl
        · rfl
      exact hnotes
  unfold bindParameters
  split
  · split
    · rfl
    · exact hall parameters
  · exact hall parameters

/-- What is noted when a key is computed: what the computation notes, then what is evicted. -/
private theorem Cache.notes_getOrCompute {κ β ω ε : Type} [DecidableEq κ] {c : Cache κ β} {key : κ}
    (evict : κ → ω) (run : Noted ω ε β) (hfree : key ∉ c.inFlight) (hfind : c.find? key = none) :
    ∃ evicted : List κ, (getOrCompute evict key (fun c => (run, c)) c).1.notes =
      run.notes ++ evicted.map evict := by
  have hcontains : c.inFlight.contains key = false := by simpa using hfree
  cases hrun : run.outcome with
  | error e =>
    simp only [getOrCompute, request, hfind, hcontains, finish, hrun]
    exact ⟨[], (List.append_nil _).symm⟩
  | ok x =>
    simp only [getOrCompute, request, hfind, hcontains, finish, hrun]
    exact ⟨_, rfl⟩

namespace Resolver
variable {res : Resolver} {c next : ResolutionCache} {call : Call} {frame : Frame}
  {arguments : List (Text × Argument)} {outcome : Except ResolveError Resolution}

private theorem recorded_bind (res : Resolver) (arguments : List (Text × Argument)) :
    ((res.bind arguments).mapError ResolveError.bind).recorded = [] :=
  recorded_bindParameters _ _ _ _

/-! What a resolution records, with and without a cache. -/

private theorem recorded_resolve_of_ok (h : (res.bind arguments).outcome = .ok frame) :
    (res.resolve arguments).recorded = (res.resolveBound frame).recorded := by
  have hmap : ((res.bind arguments).mapError ResolveError.bind).outcome = .ok frame :=
    Outcome.mapError_ok_iff.mpr h
  have hbind : ((res.bind arguments).mapError ResolveError.bind).notes.filterMap
      Event.recorded? = [] := recorded_bind res arguments
  rw [resolve, Noted.recorded, Noted.notes_bind_ok _ _ hmap, List.filterMap_append, hbind]
  rfl

private theorem recorded_resolve_of_error {e : BindError}
    (h : (res.bind arguments).outcome = .error e) :
    (res.resolve arguments).recorded = [] := by
  have hmap : ((res.bind arguments).mapError ResolveError.bind).outcome = .error (.bind e) :=
    Outcome.mapError_error_iff.mpr ⟨e, h, rfl⟩
  rw [resolve, Noted.recorded, Noted.notes_bind_error _ _ hmap]
  exact recorded_bind res arguments

/-- The computation of a key that is not stored records what it records by itself. -/
private theorem recorded_getOrCompute (run : Run ResolveError Resolution) {key : Key}
    (hfree : key ∉ c.inFlight) (hfind : c.find? key = none) :
    (Cache.getOrCompute evictedEvent key (fun c => (run, c)) c).1.recorded = run.recorded := by
  obtain ⟨evicted, hnotes⟩ := Cache.notes_getOrCompute evictedEvent run hfree hfind
  have hevicted : (evicted.map evictedEvent).filterMap Event.recorded? = [] := by
    rw [List.filterMap_eq_nil_iff]
    intro e he
    obtain ⟨key, -, rfl⟩ := List.mem_map.mp he
    rfl
  rw [Noted.recorded, hnotes, List.filterMap_append, hevicted, List.append_nil]
  rfl

private theorem recorded_resolveCached_of_ok (h : (res.bind arguments).outcome = .ok frame) :
    (res.resolveCached arguments c).1.recorded =
      (Cache.getOrCompute evictedEvent frame.key
        (fun c => (res.resolveBound frame, c)) c).1.recorded := by
  have hbind : ((res.bind arguments).mapError ResolveError.bind).notes.filterMap
      Event.recorded? = [] := recorded_bind res arguments
  have hcached : (res.resolveCached arguments c).1.notes =
      ((res.bind arguments).mapError ResolveError.bind).notes ++
        (Cache.getOrCompute evictedEvent frame.key
          (fun c => (res.resolveBound frame, c)) c).1.notes := by
    simp [resolveCached, h, Except.mapError]
  rw [Noted.recorded, hcached, List.filterMap_append, hbind]
  rfl

private theorem recorded_resolveCached_of_error {e : BindError}
    (h : (res.bind arguments).outcome = .error e) :
    (res.resolveCached arguments c).1.recorded = [] := by
  have hcached : (res.resolveCached arguments c).1.notes =
      ((res.bind arguments).mapError ResolveError.bind).notes := by
    simp [resolveCached, h, Except.mapError]
  rw [Noted.recorded, hcached]
  exact recorded_bind res arguments

private theorem recorded_answer (res : Resolver) (call : Call) :
    (res.answer call).recorded = (res.resolve call.arguments).recorded := by
  unfold answer
  split
  · rw [resolveEndpoint]
    cases h : (res.resolve call.arguments).outcome with
    | error e => rw [Noted.recorded, Noted.notes_bind_error _ _ h, Noted.recorded]
    | ok x =>
      rw [Noted.recorded, Noted.notes_bind_ok _ _ h, List.filterMap_append]
      exact List.append_nil _
  · rfl

private theorem recorded_answerCached (res : Resolver) (call : Call) (c : ResolutionCache) :
    (res.answerCached call c).1.recorded = (res.resolveCached call.arguments c).1.recorded := by
  unfold answerCached
  split <;> rfl

/-! One call on a cache. -/

/-- A call whose key is stored is counted as a hit and evaluates nothing. Any other call evaluates
what it does without the cache. -/
structure Replays (res : Resolver) (call : Call) (c : ResolutionCache) : Prop where
  hit : res.finds call c = true →
    (res.answerCached call c).2.stats.hits = c.stats.hits + 1 ∧
      (res.answerCached call c).1.recorded = []
  other : res.finds call c = false →
    (res.answerCached call c).2.stats.hits = c.stats.hits ∧
      (res.answerCached call c).1.recorded = (res.answer call).recorded

private theorem finds_eq_isSome (h : (res.bind call.arguments).outcome = .ok frame) :
    res.finds call c = (c.find? frame.key).isSome := by
  rw [finds, boundFrame?_of_ok h]
  rfl

/-- Requests are counted as hits when their key is stored. -/
private theorem Consults.hits (h : res.Consults call.arguments c outcome next) :
    next.stats.hits = c.stats.hits + (res.finds call c).toNat := by
  cases h with
  | refused hbind =>
    rw [finds_of_refused (boundFrame?_of_error hbind)]
    rfl
  | stored hbind hfind =>
    rw [finds_eq_isSome hbind, hfind]
    rfl
  | computed hbind hfind _ =>
    rw [finds_eq_isSome hbind, hfind]
    rfl
  | failed hbind hfind _ =>
    rw [finds_eq_isSome hbind, hfind]
    rfl

private theorem Consults.idle (h : res.Consults arguments c outcome next)
    (hidle : c.inFlight = []) :
    next.inFlight = [] := by
  cases h <;> exact hidle

private theorem recorded_of_finds (h : res.finds call c = true) :
    (res.resolveCached call.arguments c).1.recorded = [] := by
  cases hbind : (res.bind call.arguments).outcome with
  | error e => cases (finds_of_refused (boundFrame?_of_error hbind)).symm.trans h
  | ok frame =>
    rw [finds_eq_isSome hbind] at h
    obtain ⟨x, hfind⟩ := Option.isSome_iff_exists.mp h
    rw [recorded_resolveCached_of_ok hbind, Cache.getOrCompute_of_stored _ _ hfind]
    rfl

private theorem recorded_of_not_finds (hidle : c.inFlight = []) (h : res.finds call c = false) :
    (res.resolveCached call.arguments c).1.recorded = (res.resolve call.arguments).recorded := by
  cases hbind : (res.bind call.arguments).outcome with
  | error e => rw [recorded_resolveCached_of_error hbind, recorded_resolve_of_error hbind]
  | ok frame =>
    have hfind : c.find? frame.key = none := by
      rw [finds_eq_isSome hbind] at h
      exact Option.isNone_iff_eq_none.mp (Option.isSome_eq_false_iff.mp h)
    have hfree : frame.key ∉ c.inFlight := by simp [hidle]
    rw [recorded_resolveCached_of_ok hbind, recorded_getOrCompute _ hfree hfind,
      recorded_resolve_of_ok hbind]

private theorem replays (hidle : c.inFlight = []) (call : Call) : res.Replays call c := by
  have hconsults : res.Consults call.arguments c _ _ :=
    consults_resolveCached hidle call.arguments
  have hhits := hconsults.hits
  rw [← cache_answerCached] at hhits
  constructor
  case hit =>
    intro h
    rw [hhits, h, recorded_answerCached]
    exact ⟨rfl, recorded_of_finds h⟩
  case other =>
    intro h
    rw [hhits, h, recorded_answerCached, recorded_answer]
    exact ⟨rfl, recorded_of_not_finds hidle h⟩

private theorem idle_after (calls : List Call) (hidle : c.inFlight = []) :
    (res.after calls c).inFlight = [] := by
  induction calls using List.reverseRecOn with
  | nil => exact hidle
  | append_singleton calls call ih =>
    rw [after_concat, cache_answerCached]
    exact (consults_resolveCached ih call.arguments).idle ih

/-- A resolution calls a recording function at occurrences in the order of evaluation, at each of
them at most once, and only where conditions and earlier rules lead to it. Through a cache, a call
that is a hit does not call it, and any other call does as it does without the cache. -/
theorem calls_recorded (hr : res.registry = Registry.standard.withProbe) :
    (∀ frame, ∃ indices : List Nat, indices.Pairwise (· < ·) ∧
      List.Forall₂ (fun i vs => ∃ o,
        (res.ruleSet.root.occurrences Registry.probeName [])[i]? = some o ∧
          res.MakesCall frame vs o) indices (res.resolveBound frame).recorded) ∧
    ∀ n start, Cache.ofCapacity? n = some start →
      ∀ calls call, res.Replays call (res.after calls start) := by
  constructor
  · intro frame
    exact (records_resolveBound Registry.standard_silent hr frame).exists_indices
  · intro n start hstart calls call
    obtain ⟨-, hidle, -⟩ := Cache.new_of_ofCapacity? hstart
    exact replays (idle_after calls hidle) call

/-! A rule set with calls in a condition that fails behind them, below it, one in the argument of
another, and behind the rule that gives the result. -/

def countedDocument : Json :=
  let count (arg : Json) : Json := .obj [("fn", .str "test.count"), ("argv", .arr [arg])]
  let error (condition : Json) (message : Text) : Json := .obj [("type", .str "error"),
    ("conditions", .arr [condition]), ("error", .str message)]
  .obj [("version", .str "1.0"), ("rules", .arr [
    .obj [("type", .str "tree"), ("conditions", .arr [count (.int 1),
      .obj [("fn", .str "not"), ("argv", .arr [count (.int 2)])]]),
      ("rules", .arr [error (count (.int 3)) "below"])],
    error (count (.arr [count (.int 4), .int 5])) "done",
    error (count (.int 6)) "behind"])]

@[irreducible]
def countedRuleSet : RuleSet :=
  match RuleSet.load Registry.standard.withProbe countedDocument with
  | .ok rs => rs
  | .error _ => ⟨"", [], []⟩

def countedResolver : Resolver := ⟨countedRuleSet, Registry.standard.withProbe, [], {}⟩

theorem calls_recorded_sample : countedResolver.registry = Registry.standard.withProbe ∧
    (countedResolver.resolveBound []).recorded =
      [[some (.int 1)], [some (.int 2)], [some (.int 4)], [some (.list [.bool true, .int 5])]] ∧
    ∃ indices : List Nat, indices.Pairwise (· < ·) ∧
      List.Forall₂ (fun i vs => ∃ o,
        (countedResolver.ruleSet.root.occurrences Registry.probeName [])[i]? = some o ∧
          countedResolver.MakesCall [] vs o) indices (countedResolver.resolveBound []).recorded :=
  ⟨rfl, by decide +kernel, (calls_recorded rfl).1 []⟩

end Resolver
end EndpointRules
