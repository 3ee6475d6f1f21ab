import EndpointRules.Cache.Resolver

/-! Test cases: arguments and the resolution that they should have. -/

namespace EndpointRules

/-- The resolution that a test case expects. -/
inductive Expectation where
  | endpoint (url : Text) (headers properties : Json)
  | error (message : Text)
  deriving Repr

/-- An entry of a test document. -/
structure TestCase where
  index : Nat
  documentation : Json
  params : List (Text × Json)
  expected : Expectation
  deriving Repr

/-- A test case that was run; a failure is a message, and without one the case has passed. -/
structure TestOutcome where
  case : TestCase
  failure : Option Text
  deriving Repr

namespace TestCase

/-- What a case is called: its documentation or else its place. -/
def label (c : TestCase) : Json :=
  if c.documentation.isGiven then c.documentation
  else .str (Text.indexed "testCases" c.index)

/-- Headers or properties of an expected endpoint, which are empty when they are left out. -/
def member (key : Text) (fields : List (Text × Json)) : Json :=
  (Fields.get? key fields).getD (.obj [])

/-- What an entry expects; its defect is reported. -/
def expectation? (expect : Json) : Report (Option Expectation) :=
  match expect with
  | .obj fields =>
    match Fields.get? "endpoint" fields, Fields.get? "error" fields with
    | some (.obj body), none =>
      match Fields.get? "url" body with
      | some (.str url) =>
        return some (.endpoint url (member "headers" body) (member "properties" body))
      | _ => do
        Report.defect "Expected endpoint must have a 'url' string" (.obj body)
        return none
    | some body, none => do
      Report.defect "Expected endpoint must have a 'url' string" body
      return none
    | none, some (.str message) => return some (.error message)
    | none, some message => do
      Report.defect "Expected error must be a string" message
      return none
    | _, _ => do
      Report.defect "'expect' must hold exactly one of 'endpoint' or 'error'" expect
      return none
  | v => do
    Report.defect "'expect' must hold exactly one of 'endpoint' or 'error'" v
    return none

def ofJson? (index : Nat) : Json → Report (Option TestCase)
  | .obj fields => do
    let params ← match (Fields.get? "params" fields).getD (.obj []) with
      | .obj params => pure params
      | v => do
        Report.defect "'params' must be an object" v
        pure []
    let expected ← expectation? ((Fields.get? "expect" fields).getD .null)
    let documentation := (Fields.get? "documentation" fields).getD .null
    return expected.map fun expected => ⟨index, documentation, params, expected⟩
  | v => do
    Report.defect "Test case must be an object" v
    return none

def ofItems (index : Nat) : List Json → Report (List TestCase)
  | [] => pure []
  | item :: rest => do
    let first ← Report.within (Text.indexed "testCases" index) (ofJson? index item)
    let others ← ofItems (index + 1) rest
    return first.toList ++ others

/-- The cases of a test document with the defects that were found. -/
def ofDocument : Json → Report (List TestCase)
  | .obj fields =>
    match (Fields.get? "testCases" fields).getD .null with
    | .arr entries => ofItems 0 entries
    | v => do
      Report.within "testCases"
        (Report.defect "Test-case document must have a 'testCases' array" v)
      return []
  | _ => do
    Report.within "testCases"
      (Report.defect "Test-case document must have a 'testCases' array" .null)
    return []

/-- The cases of a test document, unless it has defects. -/
def parse (document : Json) : Except (List Diagnostic) (List TestCase) :=
  let (cases, state) := (ofDocument document).run Diagnostics.empty
  if state.errors.isEmpty then .ok cases else .error state.errors

/-- The cases of a test document in a text. -/
def parseText (text : Text) : Except LoadError (List TestCase) :=
  match Json.parse text.toList with
  | .ok document => (parse document).mapError .schema
  | .error (.fault fault) =>
    .error (.schema [.ofDocument ("Invalid JSON: " ++ fault.message text.toList) .null])
  | .error (.breakdown b) => .error (.breakdown b)

end TestCase

def headersJson (headers : List (Text × List Text)) : Json :=
  .obj (headers.map fun (name, values) => (name, .arr (values.map .str)))

/-- What differs between an expectation and a resolution, if anything does. Data that differ are
shown. -/
def Expectation.mismatch? : Expectation → Resolution → Except Breakdown (Option Text)
  | .error message, .endpoint url _ _ =>
    .ok (some ("expected error " ++ Text.quoted message ++ ", got endpoint " ++ Text.quoted url))
  | .error message, .error got =>
    if got = message then .ok none
    else .ok (some ("expected error " ++ Text.quoted message ++ ", got " ++ Text.quoted got))
  | .endpoint url _ _, .error got =>
    .ok (some ("expected endpoint " ++ Text.quoted url ++ ", got error " ++ Text.quoted got))
  | .endpoint url headers properties, .endpoint gotUrl gotHeaders gotProperties =>
    if gotUrl ≠ url then
      .ok (some ("expected url " ++ Text.quoted url ++ ", got " ++ Text.quoted gotUrl))
    else if !(headersJson gotHeaders).looseEq headers then do
      let expected ← headers.shown
      return some
        ("expected headers " ++ expected ++ ", got " ++ (← (headersJson gotHeaders).shown))
    else if !(Json.obj gotProperties).looseEq properties then do
      let expected ← properties.shown
      return some
        ("expected properties " ++ expected ++ ", got " ++ (← (Json.obj gotProperties).shown))
    else .ok none

/-- Resolves one call, with some state that is kept between calls. -/
abbrev Session (σ : Type) :=
  List (Text × Argument) → σ → Run ResolveError Resolution × σ

def Resolver.session (res : Resolver) : Session Unit := fun arguments state =>
  (res.resolve arguments, state)

def Resolver.cachedSession (res : Resolver) : Session ResolutionCache := res.resolveCached

namespace TestCase
variable {σ : Type}

/-- How a case has ended. An error of a known class is a failure; a breakdown ends the tests. -/
def judge (c : TestCase) : Except ResolveError Resolution → Run Breakdown TestOutcome
  | .error e => match e.breakdown? with
    | some b => throw b
    | none => pure ⟨c, some (e.kindName ++ ": " ++ e.message)⟩
  | .ok result => do
    match ← Noted.ofExcept (c.expected.mismatch? result) with
    | none => return ⟨c, none⟩
    | some mismatch => do
      Noted.note (.mismatched (← Noted.ofExcept c.label.shownPlain) mismatch)
      return ⟨c, some mismatch⟩

def run (session : Session σ) (c : TestCase) (state : σ) : Run Breakdown TestOutcome × σ :=
  let (run, state) := session (Argument.fieldsOfJson c.params) state
  let judged := c.judge run.outcome
  (⟨run.notes ++ judged.notes, judged.outcome⟩, state)

def runEach (session : Session σ) : List TestCase → σ → Run Breakdown (List TestOutcome) × σ
  | [], state => (pure [], state)
  | c :: rest, state =>
    let (first, state) := c.run session state
    match first.outcome with
    | .error e => (⟨first.notes, .error e⟩, state)
    | .ok outcome =>
      let (others, state) := runEach session rest state
      (⟨first.notes ++ others.notes, others.outcome.map (outcome :: ·)⟩, state)

/-- Runs cases and notes how many of them have failed. -/
def runAll (session : Session σ) (cases : List TestCase) (state : σ) :
    Run Breakdown (List TestOutcome) × σ :=
  let (run, state) := runEach session cases state
  let counted := do
    let outcomes ← run
    Noted.note (.tested outcomes.length (outcomes.countP (·.failure.isSome)))
    return outcomes
  (counted, state)

end TestCase
end EndpointRules
