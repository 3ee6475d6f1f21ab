import EndpointRules.Cache.Key
import EndpointRules.Cache.Lru
import EndpointRules.Resolver

/-! Resolution with a cache. Parameters are bound in every call; only the walk is cached. -/

namespace EndpointRules

abbrev ResolutionCache := Cache Key Resolution

abbrev CachedRun (α : Type) := CacheRun Key Resolution Event ResolveError α

/-- A call asks for whatever result there is, or for an endpoint. -/
structure Call where
  forEndpoint : Bool
  arguments : List (Text × Argument)

namespace Resolver

def evictedEvent (key : Key) : Event := .evicted key.literal

/-- Resolves one call, by a walk or from the cache. -/
def resolveCached (res : Resolver) (arguments : List (Text × Argument)) :
    CachedRun Resolution := fun c =>
  let bound := (res.bind arguments).mapError ResolveError.bind
  match bound.outcome with
  | .error e => (⟨bound.notes, .error e⟩, c)
  | .ok frame =>
    let (run, c) :=
      Cache.getOrCompute evictedEvent frame.key (fun c => (res.resolveBound frame, c)) c
    (⟨bound.notes ++ run.notes, run.outcome⟩, c)

/-- Resolves one call to an endpoint; a rejection is an error. -/
def resolveEndpointCached (res : Resolver) (arguments : List (Text × Argument)) :
    CachedRun Resolution := fun c =>
  let (run, c) := res.resolveCached arguments c
  (⟨run.notes, run.outcome.bind Resolution.expectEndpoint⟩, c)

def answer (res : Resolver) (call : Call) : Run ResolveError Resolution :=
  if call.forEndpoint then res.resolveEndpoint call.arguments else res.resolve call.arguments

def answerCached (res : Resolver) (call : Call) : CachedRun Resolution :=
  if call.forEndpoint then res.resolveEndpointCached call.arguments
  else res.resolveCached call.arguments

/-- The answers to calls on one cache, and the cache after them. -/
def serve (res : Resolver) : List Call → ResolutionCache →
    List (Run ResolveError Resolution) × ResolutionCache
  | [], c => ([], c)
  | call :: rest, c =>
    let (run, c) := res.answerCached call c
    let (runs, c) := serve res rest c
    (run :: runs, c)

/-- The cache after calls. -/
def after (res : Resolver) (calls : List Call) (c : ResolutionCache) : ResolutionCache :=
  (res.serve calls c).2

end Resolver

end EndpointRules
