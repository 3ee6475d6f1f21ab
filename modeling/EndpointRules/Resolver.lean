import EndpointRules.Resolution.Walk
import EndpointRules.RuleSet

/-! Resolvers: a rule set with its functions, built-ins and options. -/

namespace EndpointRules

/-- Options of a resolver. -/
structure ResolverOptions where
  trace : Bool := false
  rejectUnknown : Bool := true
  deriving DecidableEq, Repr

/-- Resolves endpoints for one rule set. Built-ins are configured values by their identifiers. -/
structure Resolver where
  ruleSet : RuleSet
  registry : Registry
  builtIns : List (Text × Argument)
  options : ResolverOptions

namespace Resolver

/-- A resolver with the standard functions and no configuration. -/
def ofRuleSet (rs : RuleSet) : Resolver := ⟨rs, .standard, [], {}⟩

def context (res : Resolver) : WalkContext := ⟨res.registry, res.options.trace⟩

/-- The frame of all declared parameters for the arguments of a call. -/
def bind (res : Resolver) (arguments : List (Text × Argument)) : Run BindError Frame :=
  bindParameters res.ruleSet.parameters arguments res.builtIns res.options.rejectUnknown

/-- Resolves from values that are bound already. -/
def resolveBound (res : Resolver) (frame : Frame) : Run ResolveError Resolution :=
  res.context.walk frame res.ruleSet.rules

def resolve (res : Resolver) (arguments : List (Text × Argument)) :
    Run ResolveError Resolution := do
  res.resolveBound (← (res.bind arguments).mapError ResolveError.bind)

/-- Resolves one call to an endpoint; a rejection is an error. -/
def resolveEndpoint (res : Resolver) (arguments : List (Text × Argument)) :
    Run ResolveError Resolution := do
  Noted.ofExcept (← res.resolve arguments).expectEndpoint

end Resolver
end EndpointRules
