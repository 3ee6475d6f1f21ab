import EndpointRules.Proofs.Findings
import EndpointRules.Proofs.Json.Reading
import EndpointRules.TestCase
import Mathlib.Data.List.Forall2

/-! The cases of a test document. An entry either yields a case, which holds what the entry says, or
has a defect, so a document that is accepted has a case for each of its entries. -/

namespace EndpointRules

/-- What the member `expect` of an entry states: either an endpoint with a URL, or an error. Headers
and properties that are left out are empty. -/
inductive Expectation.Stated (expect : List (Text × Json)) : Expectation → Prop
  | endpoint {body : List (Text × Json)} {url : Text} :
      Fields.get? "endpoint" expect = some (.obj body) → Fields.get? "error" expect = none →
      Fields.get? "url" body = some (.str url) →
      Stated expect (.endpoint url ((Fields.get? "headers" body).getD (.obj []))
        ((Fields.get? "properties" body).getD (.obj [])))
  | error {message : Text} :
      Fields.get? "endpoint" expect = none → Fields.get? "error" expect = some (.str message) →
      Stated expect (.error message)

/-- A case holds what an entry says, whose member `expect` has these members. -/
structure TestCase.Reads (entry : Json) (index : Nat) (expect : List (Text × Json))
    (c : TestCase) : Prop where
  index_eq : c.index = index
  entry_eq : ∃ fields, entry = .obj fields ∧
    (Fields.get? "params" fields).getD (.obj []) = .obj c.params ∧
    (Fields.get? "documentation" fields).getD .null = c.documentation ∧
    Fields.get? "expect" fields = some (.obj expect)
  stated : Expectation.Stated expect c.expected

namespace TestCase
open Report

end TestCase
end EndpointRules
