import EndpointRules.Noted
import EndpointRules.Text.Basic

/-! A bounded cache that forgets what was used least recently. Callers that ask for a key while its
computation is under way share that computation. -/

namespace EndpointRules

/-- Counts of what requests have met. -/
structure CacheStats where
  hits : Nat
  misses : Nat
  evictions : Nat
  deriving DecidableEq, Repr

/-- Entries from the least to the most recently used, and the keys whose computation is under
way. -/
structure Cache (κ β : Type) where
  capacity : Nat
  capacity_pos : 0 < capacity
  entries : List (κ × β)
  inFlight : List κ
  stats : CacheStats

/-- How a request is answered. -/
inductive CacheAnswer (β : Type) where
  | hit (x : β)
  | joined
  | owner
  deriving DecidableEq, Repr

/-- Cache steps that note things and may fail. The cache is kept in either case. -/
abbrev CacheRun (κ β ω ε α : Type) := Cache κ β → Noted ω ε α × Cache κ β

namespace Cache
variable {κ β ω ε α : Type}

/-- An empty cache, if it may hold anything at all. -/
def ofCapacity? (capacity : Int) : Option (Cache κ β) :=
  if h : 0 < capacity then some ⟨capacity.toNat, by omega, [], [], ⟨0, 0, 0⟩⟩ else none

/-- The message about a capacity that is not positive. -/
def capacityMessage : Text := "max_size must be positive"

def size (c : Cache κ β) : Nat := c.entries.length

/-- The keys from the least to the most recently used. -/
def keys (c : Cache κ β) : List κ := c.entries.map (·.1)

/-- Forgets all entries; the counts stay. -/
def clear (c : Cache κ β) : Cache κ β := { c with entries := [] }

variable [DecidableEq κ]

def find? (c : Cache κ β) (key : κ) : Option β :=
  (c.entries.find? fun entry => entry.1 = key).map (·.2)

def contains (c : Cache κ β) (key : κ) : Bool := (c.find? key).isSome

def without (key : κ) (entries : List (κ × β)) : List (κ × β) :=
  entries.filter fun entry => entry.1 ≠ key

/-- Makes an entry the one used most recently. -/
def touch (c : Cache κ β) (key : κ) (x : β) : Cache κ β :=
  { c with entries := without key c.entries ++ [(key, x)] }

/-- The entry of a key, which is thereby used. -/
def get (c : Cache κ β) (key : κ) : Option β × Cache κ β :=
  match c.find? key with
  | some x => (some x, c.touch key x)
  | none => (none, c)

/-- Asks for a key. A stored one is a hit; otherwise the first to ask owns the computation, which
is a miss, and others join it. -/
def request (c : Cache κ β) (key : κ) : CacheAnswer β × Cache κ β :=
  match c.find? key with
  | some x =>
    (.hit x, { c.touch key x with stats := { c.stats with hits := c.stats.hits + 1 } })
  | none =>
    if c.inFlight.contains key then (.joined, c)
    else
      (.owner, { c with
        inFlight := key :: c.inFlight
        stats := { c.stats with misses := c.stats.misses + 1 } })

/-- Stores a result and evicts the entries that are too many. -/
def store (c : Cache κ β) (key : κ) (x : β) : List κ × Cache κ β :=
  let entries := without key c.entries ++ [(key, x)]
  let excess := entries.length - c.capacity
  let evicted := (entries.take excess).map (·.1)
  (evicted, { c with
    entries := entries.drop excess
    stats := { c.stats with evictions := c.stats.evictions + evicted.length } })

/-- The computation of a key is over. -/
def land (c : Cache κ β) (key : κ) : Cache κ β :=
  { c with inFlight := c.inFlight.erase key }

/-- Ends the computation of a key. A result is stored and an error is not. -/
def finish (evict : κ → ω) (key : κ) (run : Noted ω ε β) (c : Cache κ β) :
    Noted ω ε β × Cache κ β :=
  match run.outcome with
  | .ok x =>
    let (evicted, c) := c.store key x
    (⟨run.notes ++ evicted.map evict, .ok x⟩, c.land key)
  | .error e => (⟨run.notes, .error e⟩, c.land key)

/-- The entry of a key, computed if it is not stored. The computation may use the cache, but must
not ask for the same key; it would be on its own if it did. -/
def getOrCompute (evict : κ → ω) (key : κ) (compute : CacheRun κ β ω ε β) :
    CacheRun κ β ω ε β := fun c =>
  match c.request key with
  | (.hit x, c) => (pure x, c)
  | (.joined, c) => compute c
  | (.owner, c) =>
    let (run, c) := compute c
    finish evict key run c

/-- Callers that ask for one key at the same time: the first one computes and the others join. All
have the same outcome. -/
def shared (evict : κ → ω) (key : κ) (others : Nat) (compute : CacheRun κ β ω ε β)
    (c : Cache κ β) : List ω × List (Except ε β) × Cache κ β :=
  match c.request key with
  | (.owner, owned) =>
    let joined := (List.replicate others key).foldl (fun c key => (c.request key).2) owned
    let (run, c) := compute joined
    let (run, c) := finish evict key run c
    (run.notes, List.replicate (others + 1) run.outcome, c)
  | _ =>
    (List.replicate (others + 1) key).foldl (fun (notes, outcomes, c) key =>
      let (run, c) := getOrCompute evict key compute c
      (notes ++ run.notes, outcomes ++ [run.outcome], c)) ([], [], c)

end Cache
end EndpointRules
