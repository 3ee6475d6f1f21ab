import EndpointRules.CommandLine.Assignments
import EndpointRules.CommandLine.Files
import EndpointRules.CommandLine.Options
import EndpointRules.Json.Printer
import EndpointRules.TestCase

/-! What the command line prints, logs and answers. -/

namespace EndpointRules.CommandLine

/-- Control sequences for the terminal. -/
inductive Style where
  | reset
  | bold
  | dim
  | red
  | green
  | cyan
  deriving DecidableEq, Repr

def Style.code : Style → Text
  | .reset => "\x1b[0m"
  | .bold => "\x1b[1m"
  | .dim => "\x1b[2m"
  | .red => "\x1b[31m"
  | .green => "\x1b[32m"
  | .cyan => "\x1b[36m"

def styled (style : Style) (text : Text) : Text := style.code ++ text ++ Style.reset.code

def line (style : Style) (text : Text) : Text := styled style text ++ "\n"

/-- How a run ends: with an exit code, or with none, because nothing could be built from a document,
because a resolution or its test broke down, or because a document was asked for by a text that is
no path. -/
inductive Ending where
  | exit (code : Nat)
  | broken (e : Document.BuildError)
  | failed (b : Breakdown)
  | notAPath
  deriving DecidableEq, Repr

/-- What a run has printed, what has happened, and how it has ended. -/
structure Transcript where
  output : Text
  events : List Event
  ending : Ending

/-- More output and events in front of a transcript. -/
def Transcript.after (output : Text) (events : List Event) (r : Transcript) : Transcript :=
  { r with output := output ++ r.output, events := events ++ r.events }

def resolutionText : Resolution → Text
  | .error message => styled .red ("Error: " ++ message)
  | .endpoint url headers properties =>
    let headerLines := headers.map fun (name, values) =>
      "  " ++ name ++ ": " ++ Text.intercalate ", " values
    let headerPart := if headers.isEmpty then [] else styled .bold "Headers:" :: headerLines
    let propertyPart :=
      if properties.isEmpty then []
      else [styled .bold "Properties:", (Json.obj properties).indentedText]
    Text.intercalate "\n" ([styled .green url] ++ headerPart ++ propertyPart)

def parameterRemarks (p : Parameter) : List Text :=
  (if p.required then [("required" : Text)] else []) ++
    (match p.builtIn with
      | some id => if id.isEmpty then [] else ["builtIn=" ++ id]
      | none => []) ++
    (match p.default with
      | some v => ["default=" ++ v.contentLiteral]
      | none => [])

def summaryLine (text : Text) : Text := line .dim (styled .dim text)

def summary (rs : RuleSet) : Text :=
  let parameterLine := fun (p : Parameter) =>
    let remarks := parameterRemarks p
    let suffix : Text :=
      if remarks.isEmpty then "" else " (" ++ Text.intercalate ", " remarks ++ ")"
    summaryLine ("  " ++ p.name ++ ": " ++ p.type.text ++ suffix)
  Text.join ([summaryLine (Text.ofList (List.replicate 40 (.char '─'))),
    summaryLine ("Version: " ++ rs.version),
    summaryLine ("Parameters: " ++ toString rs.parameters.length)] ++
    rs.parameters.map parameterLine ++
    [summaryLine ("Tree rules: " ++ toString rs.scopes.length), "\n"])

def outcomesText (verbose : Bool) (outcomes : List TestOutcome) : Text :=
  let failures := outcomes.countP (·.failure.isSome)
  let outcomeLine := fun (o : TestOutcome) =>
    let label := o.case.label.plainText
    match o.failure with
    | none => if verbose then line .green ("  ✓ " ++ label) else ""
    | some message => line .red ("  ✗ " ++ label ++ ": " ++ message)
  Text.join (outcomes.map outcomeLine) ++
    line (if failures = 0 then .green else .red)
      ("\n" ++ toString (outcomes.length - failures) ++ "/" ++ toString outcomes.length ++
        " test cases passed")

/-- The transcript of a run that stops with a message. -/
def stop (style : Style) (text : Text) : Transcript := ⟨line style text, [], .exit 1⟩

def headed (heading text : Text) : Text := styled .red (heading ++ ":") ++ " " ++ text

def runTests (reader : Reader) (res : Resolver) (path : Text) (verbose : Bool) : Transcript :=
  match reader (normalizePath path) with
  | .error .nullInPath => ⟨"", [], .notAPath⟩
  | .error e => stop .red (headed "Error" e.message)
  | .ok text =>
    match TestCase.parseText text with
    | .error (.schema errors) => stop .red (headed ErrorCode.schema.text (schemaMessage errors))
    | .error (.build e) => ⟨"", [], .broken e⟩
    | .ok cases =>
      let (run, _) := TestCase.runAll res.session cases ()
      match run.outcome with
      | .error b => ⟨"", run.notes, .failed b⟩
      | .ok outcomes =>
        let failed := outcomes.any (·.failure.isSome)
        ⟨outcomesText verbose outcomes, run.notes, .exit (if failed then 1 else 0)⟩

def runResolution (res : Resolver) (arguments : List (Text × Json)) : Transcript :=
  let run := res.resolve (Argument.fieldsOfJson arguments)
  match run.outcome with
  | .error e => match e.breakdown? with
    | some b => ⟨"", run.notes, .failed b⟩
    | none => (stop .red (headed e.kindName e.message)).after "" run.notes
  | .ok result =>
    let code := match result with
      | .endpoint _ _ _ => 0
      | .error _ => 1
    ⟨resolutionText result ++ "\n\n", run.notes, .exit code⟩

def paramsOfFile (reader : Reader) (path : Text) : Except Text (List (Text × Json)) :=
  match reader path with
  | .error e => .error e.message
  | .ok text =>
    match Json.parse text.toList with
    | .error (.fault fault) => .error (fault.message text.toList)
    | .error (.breakdown b) => .error b.message
    | .ok (.obj fields) => .ok fields
    | .ok _ => .error (path ++ " must contain a JSON object")

/-- The arguments and built-ins that are given. Assignments go before the parameter file. -/
def given (reader : Reader) (rs : RuleSet) (o : Options) :
    Except Text (List (Text × Json) × List (Text × Json)) := do
  let fromFile ← match o.paramsFile.filter (!·.isEmpty) with
    | some path => paramsOfFile reader path
    | none => .ok []
  let assigned ← (parseGiven (some rs) o.params).mapError AssignmentError.message
  let builtIns ← (parseGiven none o.builtIns).mapError AssignmentError.message
  return (Fields.putAll fromFile assigned, builtIns)

def runLoaded (reader : Reader) (rs : RuleSet) (o : Options) : Transcript :=
  let loaded := line .reset (styled .green "✓ Validation passed" ++ "\n") ++
    (if o.verbose then summary rs else "")
  if o.validate then ⟨loaded, [], .exit 0⟩
  else match given reader rs o with
    | .error message => (stop .red (headed "Error" message)).after loaded []
    | .ok (arguments, builtIns) =>
      let res : Resolver :=
        ⟨rs, .standard, Argument.fieldsOfJson builtIns, { trace := o.trace }⟩
      match o.tests.filter (!·.isEmpty) with
      | some path =>
        (runTests reader res path o.verbose).after
          (loaded ++ line .reset (styled .bold "Running test cases...")) []
      | none =>
        (runResolution res arguments).after
          (loaded ++ line .reset (styled .bold "Resolving...")) []

/-- Loads the rule set of a path and goes on with it. -/
def runPath (reader : Reader) (path : Text) (o : Options) : Transcript :=
  let heading := line .reset
    ("\n" ++ styled .bold "Loading rule set:" ++ " " ++ styled .cyan path ++ "\n")
  match reader (normalizePath path) with
  | .error .nullInPath => ⟨heading, [], .notAPath⟩
  | .error e => (stop .red ("Error: Could not load rule set: " ++ e.message)).after heading []
  | .ok text =>
    let loading := RuleSet.loadText .standard text
    match loading.outcome with
    | .ok rs => (runLoaded reader rs o).after heading loading.notes
    | .error (.build e) => ⟨heading, loading.notes, .broken e⟩
    | .error (.schema errors) =>
      let output := line .red (styled .red "Validation failed:") ++
        Text.join (errors.map fun d => line .red ("  - " ++ d.text))
      ⟨heading ++ output, loading.notes, .exit 1⟩

def plainLine (text : Text) : Text := text ++ "\n"

def help : Text :=
  Text.join [
    line .reset ("\n" ++ styled .bold "Endpoint Rules CLI" ++ "\n"),
    line .reset (styled .bold "Usage:"),
    plainLine "  pyendpoints <ruleset> [options]\n",
    line .reset (styled .bold "Examples:"),
    plainLine "  pyendpoints rules.json --validate",
    plainLine "  pyendpoints rules.json --param Region=us-west-2",
    plainLine "  pyendpoints rules.json --tests tests.json --verbose",
    plainLine "",
    line .reset (styled .bold "Options:"),
    plainLine "  -p, --param KEY=VALUE       Parameter value (repeatable)",
    plainLine "  --params-file <path>        Read parameter values from a JSON object",
    plainLine "  -b, --builtin ID=VALUE      Built-in binding, e.g. AWS::Region=us-east-1",
    plainLine "  --tests <path>              Run a test-case document",
    plainLine "  --validate                  Only validate, don't resolve",
    plainLine "  --trace                     Log rule visits",
    plainLine "  -v, --verbose               Show detailed output",
    plainLine "  -h, --help                  Show this help message",
    plainLine ""]

/-- Runs the program with options. Without a path there is nothing to do but help. -/
def runOptions (reader : Reader) (o : Options) : Transcript :=
  match o.path.filter (!·.isEmpty) with
  | some path => if o.help then ⟨help, [], .exit 0⟩ else runPath reader path o
  | none => ⟨help, [], .exit 0⟩

/-- The least level of the log that is shown. -/
def Options.logLevel (o : Options) : LogLevel :=
  if o.trace then .debug else if o.verbose then .info else .warning

def logText (level : LogLevel) (events : List Event) : Text :=
  let shown := (logLines events).filter fun line => level.rank ≤ line.level.rank
  Text.join (shown.map fun line => plainLine line.text)

/-- The message about a command line that cannot be understood. -/
def usageText (e : UsageError) : Text := plainLine ("pyendpoints: error: " ++ e.message)

end EndpointRules.CommandLine
