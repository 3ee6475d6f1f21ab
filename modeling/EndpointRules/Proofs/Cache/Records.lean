import EndpointRules.Proofs.Cache.Transparency

/-! What is in a cache after calls, and what it has counted. Both follow from the frames that the
calls have bound, and from which of these the walk has a result for. -/

namespace EndpointRules
namespace Resolver

/-- The frame that a call binds, unless its arguments are refused. -/
def boundFrame? (res : Resolver) (call : Call) : Option Frame :=
  (res.bind call.arguments).outcome.toOption

/-- The frame that a call binds, if the walk has a result for it. -/
def resolvedFrame? (res : Resolver) (call : Call) : Option Frame :=
  (res.boundFrame? call).filter fun frame => (res.resolveBound frame).outcome.isOk

/-- The frames with a result, in the order in which calls ask for them. -/
def history (res : Resolver) (calls : List Call) : List Frame :=
  calls.filterMap res.resolvedFrame?

/-- Whether the key of a call is stored. -/
def finds (res : Resolver) (call : Call) (c : ResolutionCache) : Bool :=
  (res.boundFrame? call).any fun frame => c.contains frame.key

/-- Whether the key of a call is not stored, but will be when it has been answered. -/
def adds (res : Resolver) (call : Call) (c : ResolutionCache) : Bool :=
  (res.resolvedFrame? call).any fun frame => !c.contains frame.key

/-- How many of the calls miss and then have a result. -/
def fills (res : Resolver) : List Call → ResolutionCache → Nat
  | [], _ => 0
  | call :: rest, c => (res.adds call c).toNat + fills res rest (res.answerCached call c).2

variable {res : Resolver} {document : Json} {start c next : ResolutionCache} {call : Call}
  {calls : List Call} {frame : Frame} {outcome : Except ResolveError Resolution}

/-! Calls one after another, taken from the last. -/

theorem after_concat (calls : List Call) (call : Call) (c : ResolutionCache) :
    res.after (calls ++ [call]) c = (res.answerCached call (res.after calls c)).2 := by
  induction calls generalizing c with
  | nil => rfl
  | cons first rest ih => exact ih _

private theorem fills_concat (calls : List Call) (call : Call) (c : ResolutionCache) :
    res.fills (calls ++ [call]) c =
      res.fills calls c + (res.adds call (res.after calls c)).toNat := by
  induction calls generalizing c with
  | nil => exact Nat.add_comm _ _
  | cons first rest ih =>
    have hrest := ih (res.answerCached first c).2
    rw [List.cons_append, fills, fills, hrest, Nat.add_assoc]
    rfl

private theorem history_concat (calls : List Call) (call : Call) :
    res.history (calls ++ [call]) = res.history calls ++ (res.resolvedFrame? call).toList := by
  rw [history, List.filterMap_append]
  cases h : res.resolvedFrame? call <;> simp [history, h]

/-! The frame of a call. -/

theorem boundFrame?_of_ok (h : (res.bind call.arguments).outcome = .ok frame) :
    res.boundFrame? call = some frame := by rw [boundFrame?, h]; rfl

theorem boundFrame?_of_error {e : BindError} (h : (res.bind call.arguments).outcome = .error e) :
    res.boundFrame? call = none := by rw [boundFrame?, h]; rfl

private theorem bind_of_boundFrame? (h : res.boundFrame? call = some frame) :
    (res.bind call.arguments).outcome = .ok frame := by
  unfold boundFrame? at h
  cases hbind : (res.bind call.arguments).outcome with
  | ok other =>
    rw [hbind] at h
    rw [Option.some.inj h]
  | error e =>
    rw [hbind] at h
    cases h

private theorem resolvedFrame?_of_none (h : res.boundFrame? call = none) :
    res.resolvedFrame? call = none := by rw [resolvedFrame?, h]; rfl

private theorem resolvedFrame?_of_ok {x : Resolution} (h : res.boundFrame? call = some frame)
    (hwalk : (res.resolveBound frame).outcome = .ok x) :
    res.resolvedFrame? call = some frame := by
  simp [resolvedFrame?, h, hwalk, Except.isOk, Except.toBool]

private theorem resolvedFrame?_of_error {e : ResolveError} (h : res.boundFrame? call = some frame)
    (hwalk : (res.resolveBound frame).outcome = .error e) : res.resolvedFrame? call = none := by
  simp [resolvedFrame?, h, hwalk, Except.isOk, Except.toBool]

private theorem boundFrame?_of_resolved (h : res.resolvedFrame? call = some frame) :
    res.boundFrame? call = some frame := by
  rw [resolvedFrame?, Option.filter_eq_some_iff] at h
  exact h.1

private theorem typed_of_history (hs : res.Serves document) (h : frame ∈ res.history calls) :
    frame.Typed res.ruleSet.parameters := by
  obtain ⟨call, -, hframe⟩ := List.mem_filterMap.mp h
  exact typed_of_bind hs (bind_of_boundFrame? (boundFrame?_of_resolved hframe))

/-! What one call changes. -/

/-- The four ways of a call, by its frame and by whether the key of this is stored. -/
inductive Changes (res : Resolver) (call : Call) (c : ResolutionCache) : ResolutionCache → Prop
  | refused : res.boundFrame? call = none → Changes res call c c
  | hit {frame : Frame} (x : Resolution) : res.resolvedFrame? call = some frame →
      frame.key ∈ c.keys → Changes res call c (c.hit frame.key x)
  | fill {frame : Frame} (x : Resolution) : res.resolvedFrame? call = some frame →
      frame.key ∉ c.keys → Changes res call c (c.fill frame.key x)
  | miss {frame : Frame} : res.boundFrame? call = some frame → res.resolvedFrame? call = none →
      frame.key ∉ c.keys → Changes res call c c.miss

private theorem Consults.changes (h : res.Consults call.arguments c outcome next)
    (hf : res.Faithful c)
    (hs : res.Serves document) : res.Changes call c next := by
  cases h with
  | refused hbind => exact .refused (boundFrame?_of_error hbind)
  | @stored frame x hbind hfind =>
    have hbound : res.boundFrame? call = some frame := boundFrame?_of_ok hbind
    have hwalk := hf.outcome_of_find? (typed_of_bind hs hbind) hfind
    have hkey : frame.key ∈ c.keys := by
      by_contra hnot
      rw [Cache.find?_eq_none_iff.mpr hnot] at hfind
      cases hfind
    exact .hit x (resolvedFrame?_of_ok hbound hwalk) hkey
  | computed hbind hfind hwalk =>
    have hresolved := resolvedFrame?_of_ok (boundFrame?_of_ok hbind) hwalk
    exact .fill _ hresolved (Cache.find?_eq_none_iff.mp hfind)
  | failed hbind hfind hwalk =>
    have hbound := boundFrame?_of_ok hbind
    exact .miss hbound (resolvedFrame?_of_error hbound hwalk) (Cache.find?_eq_none_iff.mp hfind)

theorem finds_of_refused (h : res.boundFrame? call = none) : res.finds call c = false := by
  rw [finds, h]
  rfl

private theorem finds_iff (h : res.boundFrame? call = some frame) :
    res.finds call c = true ↔ frame.key ∈ c.keys := by
  rw [finds, h, Option.any_some, Cache.contains_iff]

private theorem adds_of_unresolved (h : res.resolvedFrame? call = none) :
    res.adds call c = false := by
  rw [adds, h]
  rfl

private theorem adds_iff (h : res.resolvedFrame? call = some frame) :
    res.adds call c = true ↔ frame.key ∉ c.keys := by
  rw [adds, h, Option.any_some, ← Cache.contains_iff, Bool.not_eq_true', Bool.not_eq_true]

/-- What a call does to the counts and, where it fails, to the entries. A hit is a call whose key is
stored just before it. -/
structure Counts (res : Resolver) (call : Call) (c next : ResolutionCache) : Prop where
  refused : res.boundFrame? call = none → next = c
  hits : next.stats.hits = c.stats.hits + (res.finds call c).toNat
  misses : ∀ frame, res.boundFrame? call = some frame →
    next.stats.misses = c.stats.misses + (!res.finds call c).toNat
  failed : ∀ frame, res.boundFrame? call = some frame → res.resolvedFrame? call = none →
    next.entries = c.entries ∧
      next.stats = { c.stats with misses := c.stats.misses + 1 } ∧ next.inFlight = []

private theorem Changes.counts (h : res.Changes call c next) (hidle : c.inFlight = []) :
    res.Counts call c next := by
  cases h with
  | refused hbound =>
    have hfinds : res.finds call c = false := finds_of_refused hbound
    exact ⟨fun _ => rfl, by rw [hfinds]; rfl, by simp [hbound], by simp [hbound]⟩
  | hit x hresolved hkey =>
    have hbound := boundFrame?_of_resolved hresolved
    have hfinds : res.finds call c = true := (finds_iff hbound).mpr hkey
    exact ⟨by simp [hbound], by rw [hfinds]; rfl, fun _ _ => by rw [hfinds]; rfl,
      by simp [hresolved]⟩
  | fill x hresolved hkey =>
    have hbound := boundFrame?_of_resolved hresolved
    have hfinds : res.finds call c = false := Bool.eq_false_iff.mpr (mt (finds_iff hbound).mp hkey)
    exact ⟨by simp [hbound], by rw [hfinds]; rfl, fun _ _ => by rw [hfinds]; rfl,
      by simp [hresolved]⟩
  | miss hbound _ hkey =>
    have hfinds : res.finds call c = false := Bool.eq_false_iff.mpr (mt (finds_iff hbound).mp hkey)
    exact ⟨by simp [hbound], by rw [hfinds]; rfl, fun _ _ => by rw [hfinds]; rfl,
      fun _ _ _ => ⟨rfl, rfl, hidle⟩⟩

/-! What all calls so far have left. -/

/-- What calls leave of a cache that was empty. The keys are those of the last distinct frames with
a result, as many as there is room for; a frame stands where it was last asked for. -/
structure Tally (res : Resolver) (start : ResolutionCache) (calls : List Call)
    (c : ResolutionCache) : Prop where
  capacity_eq : c.capacity = start.capacity
  keys_eq : c.keys = ((res.history calls).dedup.rtake c.capacity).map Frame.key
  size_le : c.size ≤ c.capacity
  requests_eq : c.stats.hits + c.stats.misses =
    calls.countP fun call => (res.boundFrame? call).isSome
  evictions_eq : c.stats.evictions + c.size = res.fills calls start
  idle : c.inFlight = []

/-- Distinct frames have distinct keys, so the most recent keys are those of the most recent
frames. -/
private theorem holdsRecent_iff (hs : res.Serves document) :
    c.HoldsRecent ((res.history calls).map Frame.key) ↔
      c.keys = ((res.history calls).dedup.rtake c.capacity).map Frame.key := by
  have hdistinct : ((res.history calls).map Frame.key).dedup =
      (res.history calls).dedup.map Frame.key :=
    Recent.dedup_map fun first hfirst second hsecond hkey =>
      (typed_of_history hs hfirst).eq_of_key (typed_of_history hs hsecond) hkey
  rw [Cache.HoldsRecent, hdistinct, Recent.rtake_map]

private theorem Tally.concat (h : res.Tally start calls c) (hs : res.Serves document)
    (hafter : res.after calls start = c) (hchanges : res.Changes call c next) :
    res.Tally start (calls ++ [call]) next := by
  have hrecent := (holdsRecent_iff hs).mpr h.keys_eq
  have hfills : res.fills (calls ++ [call]) start =
      c.stats.evictions + c.size + (res.adds call c).toNat := by
    rw [fills_concat, hafter, h.evictions_eq]
  have hcount : ((calls ++ [call]).countP fun call => (res.boundFrame? call).isSome) =
      c.stats.hits + c.stats.misses + (res.boundFrame? call).isSome.toNat := by
    rw [List.countP_append, ← h.requests_eq, List.countP_singleton]
    cases (res.boundFrame? call).isSome <;> rfl
  cases hchanges with
  | refused hbound =>
    have hresolved : res.resolvedFrame? call = none := resolvedFrame?_of_none hbound
    refine ⟨h.capacity_eq, ?_, h.size_le, ?_, ?_, h.idle⟩
    · rw [history_concat, hresolved, Option.toList_none, List.append_nil]
      exact h.keys_eq
    · rw [hcount, hbound]
      rfl
    · rw [hfills, adds_of_unresolved hresolved]
      rfl
  | @hit frame x hresolved hkey =>
    have hbound : res.boundFrame? call = some frame := boundFrame?_of_resolved hresolved
    have hadds : res.adds call c = false :=
      Bool.eq_false_iff.mpr fun hadds => (adds_iff hresolved).mp hadds hkey
    have hnext : (c.hit frame.key x).HoldsRecent
        ((res.history (calls ++ [call])).map Frame.key) := by
      rw [history_concat, hresolved, Option.toList_some, List.map_append]
      exact hrecent.hit hkey
    refine ⟨h.capacity_eq, (holdsRecent_iff hs).mp hnext, hnext.size_le, ?_, ?_, h.idle⟩
    · rw [hcount, hbound]
      exact Nat.add_right_comm _ _ _
    · rw [hfills, hadds, hrecent.size_hit hkey]
      rfl
  | @fill frame x hresolved hkey =>
    have hbound : res.boundFrame? call = some frame := boundFrame?_of_resolved hresolved
    have hadds : res.adds call c = true := (adds_iff hresolved).mpr hkey
    have hnext : (c.fill frame.key x).HoldsRecent
        ((res.history (calls ++ [call])).map Frame.key) := by
      rw [history_concat, hresolved, Option.toList_some, List.map_append]
      exact hrecent.fill
    refine ⟨h.capacity_eq, (holdsRecent_iff hs).mp hnext, hnext.size_le, ?_, ?_, h.idle⟩
    · rw [hcount, hbound]
      rfl
    · rw [hfills, hadds, Cache.evictions_fill hkey]
      rfl
  | @miss frame hbound hresolved hkey =>
    refine ⟨h.capacity_eq, ?_, h.size_le, ?_, ?_, h.idle⟩
    · rw [history_concat, hresolved, Option.toList_none, List.append_nil]
      exact h.keys_eq
    · rw [hcount, hbound]
      rfl
    · rw [hfills, adds_of_unresolved hresolved]
      rfl

private theorem tally_nil {n : Int} (h : Cache.ofCapacity? n = some start) :
    res.Tally start [] start := by
  obtain ⟨hentries, hidle, hstats⟩ := Cache.new_of_ofCapacity? h
  have hsize : start.size = 0 := by rw [Cache.size, hentries, List.length_nil]
  refine ⟨rfl, ?_, by omega, by rw [hstats]; rfl, by rw [hstats, hsize]; rfl, hidle⟩
  rw [history, List.filterMap_nil, List.dedup_nil, List.rtake_nil, Cache.keys, hentries]
  rfl

/-- After any calls, the cache is what their frames say, and each further call is counted by what it
finds. -/
theorem tally_after (hs : res.Serves document) {n : Int} (hn : 0 < n) :
    ∃ start, Cache.ofCapacity? n = some start ∧ start.capacity = n.toNat ∧
      ∀ calls, res.Tally start calls (res.after calls start) ∧
        ∀ call, res.Counts call (res.after calls start) (res.after (calls ++ [call]) start) := by
  obtain ⟨start, hstart, hcapacity⟩ := ofCapacity?_of_pos hn
  have hchanges (calls : List Call) (call : Call)
      (hidle : (res.after calls start).inFlight = []) :
      res.Changes call (res.after calls start) (res.after (calls ++ [call]) start) := by
    have hfaithful := ((faithful_of_ofCapacity? hstart).serve hs calls).2
    rw [after_concat, cache_answerCached]
    exact (consults_resolveCached hidle call.arguments).changes hfaithful hs
  have htally (calls : List Call) : res.Tally start calls (res.after calls start) := by
    induction calls using List.reverseRecOn with
    | nil => exact tally_nil hstart
    | append_singleton calls call ih => exact ih.concat hs rfl (hchanges calls call ih.idle)
  refine ⟨start, hstart, hcapacity, fun calls => ⟨htally calls, fun call => ?_⟩⟩
  have hidle := (htally calls).idle
  exact (hchanges calls call hidle).counts hidle

theorem tally_after_sample : (0 : Int) < 1 ∧ ∃ start, Cache.ofCapacity? 1 = some start ∧
    start.capacity = 1 ∧ sampleResolver.Tally start sampleCalls
      (sampleResolver.after sampleCalls start) := by
  obtain ⟨start, hstart, hcapacity, hcalls⟩ :=
    tally_after sampleResolver_serves (n := 1) (by decide)
  exact ⟨by decide, start, hstart, hcapacity, (hcalls sampleCalls).1⟩

end Resolver
end EndpointRules
