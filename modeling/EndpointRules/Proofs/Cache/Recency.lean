import EndpointRules.Cache.Lru
import Mathlib.Data.List.Dedup
import Mathlib.Data.List.DropRight

/-! A cache keeps the keys that were used most recently. What a request does to it is one of three
changes, and what each of them does to the keys is said in terms of all uses so far. -/

namespace EndpointRules

/-! The last of the distinct keys in a list of uses. -/

namespace Recent
variable {κ : Type}

private theorem rtake_append_of_le {n : Nat} {before after : List κ} (h : n ≤ after.length) :
    (before ++ after).rtake n = after.rtake n := by
  have hlength : (before ++ after).length - n = before.length + (after.length - n) := by
    rw [List.length_append]
    omega
  rw [List.rtake, List.rtake, hlength, ← List.drop_drop, List.drop_left]

private theorem rtake_of_length_le {n : Nat} {keys : List κ} (h : keys.length ≤ n) :
    keys.rtake n = keys := by
  have hzero : keys.length - n = 0 := by omega
  rw [List.rtake, hzero, List.drop_zero]

private theorem length_rtake (n : Nat) (keys : List κ) :
    (keys.rtake n).length = min n keys.length := by
  rw [List.rtake, List.length_drop]
  omega

theorem rtake_map {κ' : Type} (f : κ → κ') (n : Nat) (keys : List κ) :
    (keys.map f).rtake n = (keys.rtake n).map f := by
  rw [List.rtake, List.rtake, List.length_map, List.map_drop]

variable [DecidableEq κ]

/-- Distinct keys stay distinct under a map that tells them apart. -/
theorem dedup_map {κ' : Type} [DecidableEq κ'] {f : κ → κ'} {uses : List κ}
    (hf : ∀ first ∈ uses, ∀ second ∈ uses, f first = f second → first = second) :
    (uses.map f).dedup = uses.dedup.map f := by
  induction uses with
  | nil => rfl
  | cons key rest ih =>
    have hrest : ∀ first ∈ rest, ∀ second ∈ rest, f first = f second → first = second :=
      fun first hfirst second hsecond =>
        hf first (List.mem_cons_of_mem _ hfirst) second (List.mem_cons_of_mem _ hsecond)
    rw [List.map_cons, List.dedup_cons, List.dedup_cons, ih hrest]
    by_cases hkey : key ∈ rest
    · rw [if_pos hkey, if_pos (List.mem_map_of_mem hkey)]
    · have hnew : f key ∉ rest.map f := by
        intro hmem
        obtain ⟨other, hother, hsame⟩ := List.mem_map.mp hmem
        have heq : other = key :=
          hf other (List.mem_cons_of_mem _ hother) key List.mem_cons_self hsame
        exact hkey (heq ▸ hother)
      rw [if_neg hkey, if_neg hnew, List.map_cons]

/-- A further use of a key moves it behind all others. -/
private theorem dedup_concat (uses : List κ) (key : κ) :
    (uses ++ [key]).dedup = uses.dedup.filter (· ≠ key) ++ [key] := by
  induction uses with
  | nil => simp
  | cons first rest ih =>
    rw [List.cons_append, List.dedup_cons, List.dedup_cons, ih]
    by_cases hrest : first ∈ rest
    · have hmem : first ∈ rest ++ [key] := List.mem_append_left _ hrest
      rw [if_pos hmem, if_pos hrest]
    · by_cases hkey : first = key
      · have hmem : first ∈ rest ++ [key] := by simp [hkey]
        rw [if_pos hmem, if_neg hrest, List.filter_cons_of_neg (by simp [hkey])]
      · have hnot : first ∉ rest ++ [key] := by simp [hrest, hkey]
        rw [if_neg hnot, if_neg hrest, List.filter_cons_of_pos (by simp [hkey]), List.cons_append]

private theorem filter_ne_of_nodup {keys : List κ} (hn : keys.Nodup) (key : κ) :
    keys.filter (· ≠ key) = keys.erase key := by
  rw [hn.erase_eq_filter]
  apply List.filter_congr
  intro other _
  by_cases hother : other = key <;> simp [hother]

/-- Leaving one key out of the last `m + 1` still leaves the last `m`. -/
private theorem rtake_filter {m : Nat} {keys : List κ} (hn : keys.Nodup) (key : κ) :
    (keys.filter (· ≠ key)).rtake m = ((keys.rtake (m + 1)).filter (· ≠ key)).rtake m := by
  by_cases hshort : keys.length ≤ m + 1
  · rw [rtake_of_length_le hshort]
  · have hsplit : keys = keys.take (keys.length - (m + 1)) ++ keys.rtake (m + 1) :=
      (List.take_append_drop _ _).symm
    have hnodup : (keys.rtake (m + 1)).Nodup := hn.sublist (List.drop_sublist _ _)
    have hlong : m ≤ ((keys.rtake (m + 1)).filter (· ≠ key)).length := by
      have herase : (keys.rtake (m + 1)).length - 1 ≤ ((keys.rtake (m + 1)).erase key).length :=
        List.le_length_erase
      rw [length_rtake] at herase
      rw [filter_ne_of_nodup hnodup]
      omega
    conv_lhs => rw [hsplit]
    rw [List.filter_append, rtake_append_of_le hlong]

/-- The last distinct keys after a further use follow from those before it. -/
private theorem dedup_concat_rtake {n : Nat} (hn : 0 < n) (uses : List κ) (key : κ) :
    (uses ++ [key]).dedup.rtake n =
      ((uses.dedup.rtake n).filter (· ≠ key) ++ [key]).rtake n := by
  cases n with
  | zero => omega
  | succ m =>
    rw [dedup_concat, List.rtake_concat_succ, List.rtake_concat_succ,
      rtake_filter (List.nodup_dedup uses)]

end Recent

namespace Cache
variable {κ β ω ε : Type} {c : Cache κ β} {key : κ} {x : β}

private theorem length_keys (c : Cache κ β) : c.keys.length = c.size := List.length_map _

/-- A new cache holds nothing, computes nothing and has counted nothing. -/
theorem new_of_ofCapacity? {n : Int} (h : ofCapacity? n = some c) :
    c.entries = [] ∧ c.inFlight = [] ∧ c.stats = ⟨0, 0, 0⟩ := by
  rw [ofCapacity?] at h
  split at h
  · cases h
    exact ⟨rfl, rfl, rfl⟩
  · cases h

variable [DecidableEq κ]

theorem mem_entries_of_find? (h : c.find? key = some x) : (key, x) ∈ c.entries := by
  obtain ⟨entry, hfind, rfl⟩ := Option.map_eq_some_iff.mp h
  have hkey : entry.1 = key := by simpa using List.find?_some hfind
  rw [← hkey]
  exact List.mem_of_find?_eq_some hfind

theorem find?_eq_none_iff : c.find? key = none ↔ key ∉ c.keys := by
  simp only [find?, Option.map_eq_none_iff, List.find?_eq_none, keys, List.mem_map, not_exists,
    not_and, decide_eq_true_eq]

theorem contains_iff : c.contains key = true ↔ key ∈ c.keys := by
  rw [contains, Option.isSome_iff_ne_none, ne_eq, find?_eq_none_iff, not_not]

private theorem keys_without (key : κ) (entries : List (κ × β)) :
    (without key entries).map (·.1) = (entries.map (·.1)).filter (· ≠ key) := by
  rw [without, List.filter_map]
  rfl

/-- What is stored stays stored unless it is evicted, and only the computed result is new. -/
theorem mem_entries_store {entry : κ × β} (h : entry ∈ (c.store key x).2.entries) :
    entry = (key, x) ∨ entry ∈ c.entries := by
  have hmem : entry ∈ without key c.entries ++ [(key, x)] := List.mem_of_mem_drop h
  rcases List.mem_append.mp hmem with hold | hnew
  · exact .inr (List.mem_of_mem_filter hold)
  · exact .inl (List.mem_singleton.mp hnew)

/-! The three changes. -/

/-- After a request for a stored key. -/
def hit (c : Cache κ β) (key : κ) (x : β) : Cache κ β :=
  { c.touch key x with stats := { c.stats with hits := c.stats.hits + 1 } }

/-- After a request whose computation has failed. -/
def miss (c : Cache κ β) : Cache κ β :=
  { c with stats := { c.stats with misses := c.stats.misses + 1 } }

/-- After a request whose computation has had a result. -/
def fill (c : Cache κ β) (key : κ) (x : β) : Cache κ β := (c.miss.store key x).2

private theorem keys_hit : (c.hit key x).keys = c.keys.filter (· ≠ key) ++ [key] := by
  have hkeys : (c.hit key x).keys = (without key c.entries ++ [(key, x)]).map (·.1) := rfl
  rw [hkeys, List.map_append, keys_without]
  rfl

private theorem keys_fill :
    (c.fill key x).keys = (c.keys.filter (· ≠ key) ++ [key]).rtake c.capacity := by
  have hkeys : (c.fill key x).keys =
      ((without key c.entries ++ [(key, x)]).rtake c.capacity).map (·.1) := rfl
  rw [hkeys, List.rtake, List.map_drop, List.map_append, keys_without, List.rtake]
  congr 2
  have hlength := congrArg List.length (keys_without key c.entries)
  rw [List.length_map] at hlength
  rw [List.length_append, List.length_append, hlength]
  rfl

/-- Storing a new key makes the cache larger by one, or evicts one. -/
theorem evictions_fill (h : key ∉ c.keys) :
    (c.fill key x).stats.evictions + (c.fill key x).size = c.stats.evictions + c.size + 1 := by
  have hwithout : without key c.entries = c.entries := by
    apply List.filter_eq_self.mpr
    intro entry hentry
    have hne : entry.1 ≠ key := fun heq => h (heq ▸ List.mem_map_of_mem hentry)
    simpa using hne
  simp only [fill, store, miss, size, hwithout, List.length_drop, List.length_map,
    List.length_take, List.length_append, List.length_singleton]
  omega

/-- A computation that leaves the cache alone, asked for by the one request for its key: a stored
result is given back, and otherwise the run decides. -/
theorem getOrCompute_of_stored (evict : κ → ω) (compute : CacheRun κ β ω ε β)
    (h : c.find? key = some x) : getOrCompute evict key compute c = (pure x, c.hit key x) := by
  simp only [getOrCompute, request, h]
  rfl

theorem getOrCompute_of_ok (evict : κ → ω) {run : Noted ω ε β} (hfree : key ∉ c.inFlight)
    (h : c.find? key = none) (hrun : run.outcome = .ok x) :
    (getOrCompute evict key (fun c => (run, c)) c).1.outcome = .ok x ∧
      (getOrCompute evict key (fun c => (run, c)) c).2 = c.fill key x := by
  have hcontains : c.inFlight.contains key = false := by simpa using hfree
  simp only [getOrCompute, request, h, hcontains, finish, hrun]
  constructor
  · rfl
  · simp [store, land, fill, miss]

theorem getOrCompute_of_error (evict : κ → ω) {run : Noted ω ε β} {e : ε}
    (hfree : key ∉ c.inFlight) (h : c.find? key = none) (hrun : run.outcome = .error e) :
    (getOrCompute evict key (fun c => (run, c)) c).1.outcome = .error e ∧
      (getOrCompute evict key (fun c => (run, c)) c).2 = c.miss := by
  have hcontains : c.inFlight.contains key = false := by simpa using hfree
  simp only [getOrCompute, request, h, hcontains, finish, hrun]
  constructor
  · rfl
  · simp [land, miss]

/-! Recency. -/

/-- The cache holds the most recent of the keys that were used, as many as it may. -/
def HoldsRecent (c : Cache κ β) (uses : List κ) : Prop := c.keys = uses.dedup.rtake c.capacity

theorem HoldsRecent.size_le {uses : List κ} (h : c.HoldsRecent uses) : c.size ≤ c.capacity := by
  have hlength := congrArg List.length h
  rw [length_keys, Recent.length_rtake] at hlength
  omega

/-- A further use of a stored key makes it the most recent one. -/
theorem HoldsRecent.hit {uses : List κ} (h : c.HoldsRecent uses) (hkey : key ∈ c.keys) :
    (c.hit key x).HoldsRecent (uses ++ [key]) := by
  have hcapacity : (c.hit key x).capacity = c.capacity := rfl
  have hlt : (c.keys.filter (· ≠ key)).length < c.keys.length :=
    List.length_filter_lt_length_iff_exists.mpr ⟨key, hkey, by simp⟩
  have hfits : (c.keys.filter (· ≠ key) ++ [key]).length ≤ c.capacity := by
    have hsize := h.size_le
    rw [← length_keys] at hsize
    rw [List.length_append, List.length_singleton]
    omega
  rw [HoldsRecent, keys_hit, hcapacity, Recent.dedup_concat_rtake c.capacity_pos, ← h,
    Recent.rtake_of_length_le hfits]

theorem HoldsRecent.size_hit {uses : List κ} (h : c.HoldsRecent uses) (hkey : key ∈ c.keys) :
    (c.hit key x).size = c.size := by
  have hnodup : c.keys.Nodup := by
    rw [h]
    exact (List.nodup_dedup uses).sublist (List.drop_sublist _ _)
  rw [← length_keys, ← length_keys, keys_hit, Recent.filter_ne_of_nodup hnodup,
    List.length_append, List.length_singleton, List.length_erase_add_one hkey]

/-- A new key becomes the most recent one; the least recent one may have to go. -/
theorem HoldsRecent.fill {uses : List κ} (h : c.HoldsRecent uses) :
    (c.fill key x).HoldsRecent (uses ++ [key]) := by
  have hcapacity : (c.fill key x).capacity = c.capacity := rfl
  rw [HoldsRecent, keys_fill, hcapacity, Recent.dedup_concat_rtake c.capacity_pos, ← h]

end Cache
end EndpointRules
