import EndpointRules.Proofs.Cache.Transparency
import EndpointRules.Proofs.Resolution.Distinct
import EndpointRules.Proofs.Resolution.Safety
import EndpointRules.Proofs.TestCase.Parsing

/-! Running the cases of a test document. Each of its entries gets one outcome, which has no failure
exactly when the resolution of the entry's parameters gives what the entry expects, on a plain
resolver as well as on one with a cache. An entry that breaks down ends the run. -/

namespace EndpointRules

namespace Expectation

end Expectation

/-! Runs. -/

/-- In a fit state, a session ends each call as the resolver does by itself, and it stays in fit
states. -/
structure Session.Follows {σ : Type} (session : Session σ) (res : Resolver) (Fit : σ → Prop) :
    Prop where
  outcome_eq : ∀ arguments state, Fit state →
    (session arguments state).1.outcome = (res.resolve arguments).outcome
  fit : ∀ arguments state, Fit state → Fit (session arguments state).2

namespace Resolver
variable {res : Resolver} {document : Json}

end Resolver

namespace TestCase
variable {σ : Type} {session : Session σ} {Fit : σ → Prop} {res : Resolver} {document : Json}

end TestCase

namespace Resolver

end Resolver

namespace TestCase
variable {res : Resolver} {document tests : Json} {cases : List TestCase} {c : TestCase}
  {outcome : TestOutcome} {b : Breakdown}

section
variable {entry : Json} {index : Nat} {expect : List (Text × Json)}

end

end TestCase
end EndpointRules
