import EndpointRules.Cache.Resolver
import EndpointRules.Proofs.Cache.Keys
import EndpointRules.Proofs.Cache.Recency

/-! A cache does not show in the answers. Every stored result is the one that the walk gives for the
frame of its key, and each call leaves it so, whichever way it ends. -/

namespace EndpointRules

/-- The answer to a call, made of what its resolution has given. -/
def Call.settle (call : Call) (outcome : Except ResolveError Resolution) :
    Except ResolveError Resolution :=
  if call.forEndpoint then outcome.bind Resolution.expectEndpoint else outcome

namespace Resolver
variable {res : Resolver} {document : Json} {c next : ResolutionCache}
  {arguments : List (Text × Argument)} {outcome : Except ResolveError Resolution}

private theorem outcome_answer (call : Call) :
    (res.answer call).outcome = call.settle (res.resolve call.arguments).outcome := by
  unfold answer Call.settle
  split
  · rw [resolveEndpoint, Noted.outcome_bind]
    rfl
  · rfl

private theorem outcome_answerCached (call : Call) (c : ResolutionCache) :
    (res.answerCached call c).1.outcome =
      call.settle (res.resolveCached call.arguments c).1.outcome := by
  unfold answerCached Call.settle
  split <;> rfl

theorem cache_answerCached (call : Call) (c : ResolutionCache) :
    (res.answerCached call c).2 = (res.resolveCached call.arguments c).2 := by
  unfold answerCached
  split <;> rfl

/-! One resolution. -/

/-- What a resolution on a cache gives and leaves behind. Its arguments are refused, or its result
is stored, or the walk gives a result that is then stored, or the walk fails. -/
inductive Consults (res : Resolver) (arguments : List (Text × Argument)) (c : ResolutionCache) :
    Except ResolveError Resolution → ResolutionCache → Prop
  | refused {e : BindError} :
      (res.bind arguments).outcome = .error e → Consults res arguments c (.error (.bind e)) c
  | stored {frame : Frame} {x : Resolution} :
      (res.bind arguments).outcome = .ok frame → c.find? frame.key = some x →
      Consults res arguments c (.ok x) (c.hit frame.key x)
  | computed {frame : Frame} {x : Resolution} :
      (res.bind arguments).outcome = .ok frame → c.find? frame.key = none →
      (res.resolveBound frame).outcome = .ok x →
      Consults res arguments c (.ok x) (c.fill frame.key x)
  | failed {frame : Frame} {e : ResolveError} :
      (res.bind arguments).outcome = .ok frame → c.find? frame.key = none →
      (res.resolveBound frame).outcome = .error e → Consults res arguments c (.error e) c.miss

theorem consults_resolveCached (hidle : c.inFlight = []) (arguments : List (Text × Argument)) :
    res.Consults arguments c (res.resolveCached arguments c).1.outcome
      (res.resolveCached arguments c).2 := by
  cases hbind : (res.bind arguments).outcome with
  | error e =>
    have hcached : (res.resolveCached arguments c).1.outcome = .error (.bind e) ∧
        (res.resolveCached arguments c).2 = c := by
      simp [resolveCached, hbind, Except.mapError]
    rw [hcached.1, hcached.2]
    exact .refused hbind
  | ok frame =>
    have hcached : (res.resolveCached arguments c).1.outcome =
          (Cache.getOrCompute evictedEvent frame.key
            (fun c => (res.resolveBound frame, c)) c).1.outcome ∧
        (res.resolveCached arguments c).2 =
          (Cache.getOrCompute evictedEvent frame.key
            (fun c => (res.resolveBound frame, c)) c).2 := by
      simp [resolveCached, hbind, Except.mapError]
    rw [hcached.1, hcached.2]
    have hfree : frame.key ∉ c.inFlight := by simp [hidle]
    cases hfind : c.find? frame.key with
    | some x =>
      rw [Cache.getOrCompute_of_stored _ _ hfind]
      exact .stored hbind hfind
    | none =>
      cases hwalk : (res.resolveBound frame).outcome with
      | ok x =>
        obtain ⟨houtcome, hcache⟩ := Cache.getOrCompute_of_ok evictedEvent hfree hfind hwalk
        rw [houtcome, hcache]
        exact .computed hbind hfind hwalk
      | error e =>
        obtain ⟨houtcome, hcache⟩ := Cache.getOrCompute_of_error evictedEvent hfree hfind hwalk
        rw [houtcome, hcache]
        exact .failed hbind hfind hwalk

private theorem outcome_resolve_of_bind {frame : Frame}
    (h : (res.bind arguments).outcome = .ok frame) :
    (res.resolve arguments).outcome = (res.resolveBound frame).outcome := by
  have hmap : ((res.bind arguments).mapError ResolveError.bind).outcome = .ok frame :=
    Outcome.mapError_ok_iff.mpr h
  rw [resolve, Noted.outcome_bind_of_ok hmap]

theorem typed_of_bind (hs : res.Serves document) {frame : Frame}
    (h : (res.bind arguments).outcome = .ok frame) : frame.Typed res.ruleSet.parameters :=
  Frame.typed_of_bindAll hs.loaded.defaults_fit (bindAll_of_bindParameters h)

/-- No computation is under way, and each stored result is what the walk gives for a frame with that
key. -/
structure Faithful (res : Resolver) (c : ResolutionCache) : Prop where
  idle : c.inFlight = []
  stored : ∀ entry ∈ c.entries, ∃ frame : Frame, frame.Typed res.ruleSet.parameters ∧
    frame.key = entry.1 ∧ (res.resolveBound frame).outcome = .ok entry.2

/-- A key stands for one frame, so a stored result is that of every frame with its key. -/
theorem Faithful.outcome_of_find? (h : res.Faithful c) {frame : Frame} {x : Resolution}
    (hframe : frame.Typed res.ruleSet.parameters) (hx : c.find? frame.key = some x) :
    (res.resolveBound frame).outcome = .ok x := by
  obtain ⟨other, hother, hkey, hwalk⟩ := h.stored _ (Cache.mem_entries_of_find? hx)
  have hsame : other = frame := hother.eq_of_key hframe hkey
  rwa [hsame] at hwalk

theorem Consults.outcome_eq (h : res.Consults arguments c outcome next) (hf : res.Faithful c)
    (hs : res.Serves document) : outcome = (res.resolve arguments).outcome := by
  cases h with
  | @refused e hbind =>
    have hmap : ((res.bind arguments).mapError ResolveError.bind).outcome = .error (.bind e) :=
      Outcome.mapError_error_iff.mpr ⟨e, hbind, rfl⟩
    rw [resolve, Noted.outcome_bind_of_error hmap]
  | stored hbind hfind =>
    rw [outcome_resolve_of_bind hbind, hf.outcome_of_find? (typed_of_bind hs hbind) hfind]
  | computed hbind _ hwalk => rw [outcome_resolve_of_bind hbind, hwalk]
  | failed hbind _ hwalk => rw [outcome_resolve_of_bind hbind, hwalk]

theorem Consults.faithful (h : res.Consults arguments c outcome next) (hf : res.Faithful c)
    (hs : res.Serves document) : res.Faithful next := by
  cases h with
  | refused _ => exact hf
  | @stored frame x hbind hfind =>
    refine ⟨hf.idle, fun entry hentry => ?_⟩
    have hmem : entry ∈ Cache.without frame.key c.entries ++ [(frame.key, x)] := hentry
    rcases List.mem_append.mp hmem with hold | hnew
    · exact hf.stored entry (List.mem_of_mem_filter hold)
    · rw [List.mem_singleton.mp hnew]
      exact hf.stored _ (Cache.mem_entries_of_find? hfind)
  | @computed frame x hbind _ hwalk =>
    refine ⟨hf.idle, fun entry hentry => ?_⟩
    rcases Cache.mem_entries_store hentry with rfl | hold
    · exact ⟨frame, typed_of_bind hs hbind, rfl, hwalk⟩
    · exact hf.stored entry hold
  | failed _ _ _ => exact ⟨hf.idle, hf.stored⟩

/-! Calls one after another. -/

private theorem Faithful.answer (h : res.Faithful c) (hs : res.Serves document) (call : Call) :
    (res.answerCached call c).1.outcome = (res.answer call).outcome ∧
      res.Faithful (res.answerCached call c).2 := by
  have hconsults : res.Consults call.arguments c _ _ :=
    consults_resolveCached h.idle call.arguments
  rw [outcome_answerCached, outcome_answer, cache_answerCached, hconsults.outcome_eq h hs]
  exact ⟨rfl, hconsults.faithful h hs⟩

theorem Faithful.serve (h : res.Faithful c) (hs : res.Serves document) (calls : List Call) :
    (res.serve calls c).1.map Noted.outcome = calls.map (fun call => (res.answer call).outcome) ∧
      res.Faithful (res.after calls c) := by
  induction calls generalizing c with
  | nil => exact ⟨rfl, h⟩
  | cons call rest ih =>
    obtain ⟨hanswer, hnext⟩ := h.answer hs call
    obtain ⟨hrest, hlast⟩ := ih hnext
    exact ⟨by rw [List.map_cons, ← hanswer, ← hrest]; rfl, hlast⟩

theorem faithful_of_ofCapacity? {n : Int} (h : Cache.ofCapacity? n = some c) : res.Faithful c := by
  obtain ⟨hentries, hidle, -⟩ := Cache.new_of_ofCapacity? h
  refine ⟨hidle, fun entry hentry => ?_⟩
  rw [hentries] at hentry
  exact absurd hentry List.not_mem_nil

theorem ofCapacity?_of_pos {n : Int} (hn : 0 < n) :
    ∃ c : ResolutionCache, Cache.ofCapacity? n = some c ∧ c.capacity = n.toNat := by
  refine ⟨_, dif_pos hn, rfl⟩

/-- Calls that are made one after another on a cache of any size are answered as they are without a
cache: with the same results, and with errors of the same cause. -/
theorem outcomes_serve (hs : res.Serves document) {n : Int} (hn : 0 < n) (calls : List Call) :
    ∃ c, Cache.ofCapacity? n = some c ∧
      (res.serve calls c).1.map Noted.outcome =
        calls.map fun call => (res.answer call).outcome := by
  obtain ⟨c, hc, -⟩ := ofCapacity?_of_pos hn
  exact ⟨c, hc, ((faithful_of_ofCapacity? hc).serve hs calls).1⟩

/-- A result that is used twice, an error between, and too little room for both frames. -/
def sampleCalls : List Call :=
  [⟨false, sampleArguments "isIp"⟩, ⟨true, sampleArguments "isIp"⟩, ⟨false, []⟩,
    ⟨true, []⟩, ⟨false, [("Field", .int 1)]⟩, ⟨true, sampleArguments "isIp"⟩]

theorem outcomes_serve_sample : (0 : Int) < 1 ∧ ∃ c, Cache.ofCapacity? 1 = some c ∧
    (sampleResolver.serve sampleCalls c).1.map Noted.outcome =
      sampleCalls.map fun call => (sampleResolver.answer call).outcome :=
  ⟨by decide, outcomes_serve sampleResolver_serves (by decide) sampleCalls⟩

end Resolver
end EndpointRules
