import EndpointRules.Text.Classes
import EndpointRules.Text.Literal
import EndpointRules.Text.Split

/-! The options of the command line. Long options may be cut short as long as one name fits, and
short options without a value may be written together. -/

namespace EndpointRules.CommandLine

/-- The options there are. -/
inductive Flag where
  | param
  | paramsFile
  | builtIn
  | tests
  | validate
  | trace
  | verbose
  | help
  deriving DecidableEq, Repr

namespace Flag

def takesValue : Flag → Bool
  | .param | .paramsFile | .builtIn | .tests => true
  | .validate | .trace | .verbose | .help => false

def names : Flag → List Text
  | .param => ["-p", "--param"]
  | .paramsFile => ["--params-file"]
  | .builtIn => ["-b", "--builtin"]
  | .tests => ["--tests"]
  | .validate => ["--validate"]
  | .trace => ["--trace"]
  | .verbose => ["-v", "--verbose"]
  | .help => ["-h", "--help"]

def fullName (flag : Flag) : Text := Text.intercalate "/" flag.names

def all : List Flag :=
  [.param, .paramsFile, .builtIn, .tests, .validate, .trace, .verbose, .help]

def ofName? (name : Text) : Option Flag := all.find? fun flag => flag.names.contains name

/-- The names that start with some text, with their options. -/
def startingWith (start : List CodePoint) : List (Text × Flag) :=
  all.flatMap fun flag =>
    (flag.names.filter fun name => start.isPrefixOf name.toList).map fun name => (name, flag)

end Flag

/-- Why a command line cannot be understood. -/
inductive UsageError where
  | ambiguous (given : Text) (names : List Text)
  | valueMissing (flag : Flag)
  | valueIgnored (flag : Flag) (value : Text)
  | unrecognized (args : List Text)
  deriving DecidableEq, Repr

def UsageError.message : UsageError → Text
  | .ambiguous given names =>
    ("ambiguous option: " ++ given ++ " could match ") ++ Text.intercalate ", " names
  | .valueMissing flag => "argument " ++ flag.fullName ++ ": expected one argument"
  | .valueIgnored flag value =>
    "argument " ++ flag.fullName ++ ": ignored explicit argument " ++ Text.quoted value
  | .unrecognized args => "unrecognized arguments: " ++ Text.intercalate " " args

/-- What an argument was found to be. The value written together with an option follows it; short
options may go on in it. -/
inductive Token where
  | plain (text : Text)
  | separator
  | option (flag : Flag) (short : Bool) (written : Option Text)
  | unknown (text : Text)
  deriving DecidableEq, Repr

/-- A minus sign and a decimal number, which one line feed may follow. -/
def isNegativeNumber (cs : List CodePoint) : Bool :=
  let isDigit := fun c => (Text.digitValue? c).isSome
  match Text.dropFinalNewline cs with
  | .char '-' :: rest =>
    match rest.span isDigit with
    | (_ :: _, []) => true
    | (_, .char '.' :: fraction) => !fraction.isEmpty && fraction.all isDigit
    | _ => false
  | _ => false

/-- The meaning of an argument that is not the full name of an option. -/
def classifyOther (arg : Text) : Except UsageError Token :=
  match arg.toList with
  | .char '-' :: second :: rest =>
    let candidates : List (Text × Token) :=
      if second = '-' then
        let (start, written) := match Text.cutAt? '=' arg.toList with
          | some (start, value) => (start, some (Text.ofList value))
          | none => (arg.toList, none)
        (Flag.startingWith start).map fun (name, flag) => (name, .option flag false written)
      else match Flag.ofName? (Text.ofList [.char '-', second]) with
        | some flag =>
          [(Text.ofList [.char '-', second], .option flag true (some (Text.ofList rest)))]
        | none => []
    match candidates with
    | [(_, token)] => .ok token
    | [] =>
      if isNegativeNumber arg.toList || arg.toList.contains ' ' then .ok (.plain arg)
      else .ok (.unknown arg)
    | candidates => .error (.ambiguous arg (candidates.map (·.1)))
  | _ => .ok (.plain arg)

/-- An option is short when a single hyphen starts its name. -/
def isShort (name : Text) : Bool := name.toList[1]? != some (.char '-')

def classify (arg : Text) : Except UsageError Token :=
  match Flag.ofName? arg with
  | some flag => .ok (.option flag (isShort arg) none)
  | none =>
    match Text.cutAt? '=' arg.toList with
    | some (name, value) =>
      match Flag.ofName? (Text.ofList name) with
      | some flag =>
        .ok (.option flag (isShort (Text.ofList name)) (some (Text.ofList value)))
      | none => classifyOther arg
    | none => classifyOther arg

/-- The meanings of all arguments; after the first separator there are no more options. -/
def tokens : List Text → Except UsageError (List Token)
  | [] => .ok []
  | arg :: rest =>
    if arg = "--" then .ok (.separator :: rest.map .plain)
    else do
      let first ← classify arg
      return first :: (← tokens rest)

/-- What a command line asks for. A value that was written as a separator is lost. -/
structure Options where
  path : Option Text
  params : List (Option Text)
  paramsFile : Option Text
  builtIns : List (Option Text)
  tests : Option Text
  validate : Bool
  trace : Bool
  verbose : Bool
  help : Bool
  deriving DecidableEq, Repr

namespace Options

def empty : Options := ⟨none, [], none, [], none, false, false, false, false⟩

def set (o : Options) (flag : Flag) (value : Option Text) : Options :=
  match flag with
  | .param => { o with params := o.params ++ [value] }
  | .paramsFile => { o with paramsFile := value }
  | .builtIn => { o with builtIns := o.builtIns ++ [value] }
  | .tests => { o with tests := value }
  | .validate => { o with validate := true }
  | .trace => { o with trace := true }
  | .verbose => { o with verbose := true }
  | .help => { o with help := true }

end Options

/-- A written value; a separator does not count as one. -/
def writtenValue (value : Text) : Option Text := if value = "--" then none else some value

/-- Short options written together: those without a value, then the last one with what is left of
the argument. -/
def bundle (flag : Flag) : List CodePoint → Except UsageError (List Flag × Flag × Option Text)
  | [] => .ok ([], flag, none)
  | c :: rest =>
    if flag.takesValue then .ok ([], flag, some (Text.ofList (c :: rest)))
    else match Flag.ofName? (Text.ofList [.char '-', c]) with
      | none => .error (.valueIgnored flag (Text.ofList (c :: rest)))
      | some next => do
        let (flags, last, value) ← bundle next rest
        return (flag :: flags, last, value)

/-- The options that one argument gives, and the value written with the last one. -/
def expand (flag : Flag) (short : Bool) (written : Option Text) :
    Except UsageError (List Flag × Flag × Option Text) :=
  match written with
  | none => .ok ([], flag, none)
  | some value =>
    if flag.takesValue then .ok ([], flag, some value)
    else if short && value ≠ "" then bundle flag value.toList
    else .error (.valueIgnored flag value)

/-- Notes the options of one argument. An option whose value is not written with it is pending. -/
def Options.apply (o : Options) (flag : Flag) (short : Bool) (written : Option Text) :
    Except UsageError (Options × Option Flag) := do
  let (flags, last, value) ← expand flag short written
  let o := flags.foldl (fun o flag => o.set flag none) o
  if last.takesValue then
    match value with
    | some value => return (o.set last (writtenValue value), none)
    | none => return (o, some last)
  else return (o.set last none, none)

/-- Goes through the arguments. The first plain one is the path, and a separator beside it is
dropped with it; whatever else is left over is collected. -/
def collect (o : Options) (pathTaken : Bool) (leftOver : List Text) :
    List Token → Except UsageError (Options × List Text)
  | [] => .ok (o, leftOver)
  | .plain text :: .separator :: rest =>
    if pathTaken then collect o true (leftOver ++ [text, ("--" : Text)]) rest
    else collect { o with path := some text } true leftOver rest
  | .plain text :: rest =>
    if pathTaken then collect o true (leftOver ++ [text]) rest
    else collect { o with path := some text } true leftOver rest
  | .separator :: .plain text :: rest =>
    if pathTaken then collect o true (leftOver ++ [("--" : Text), text]) rest
    else collect { o with path := some text } true leftOver rest
  | .separator :: rest =>
    if pathTaken then collect o true (leftOver ++ [("--" : Text)]) rest
    else collect o true leftOver rest
  | .unknown text :: rest => collect o pathTaken (leftOver ++ [text]) rest
  | .option flag short written :: rest => do
    let (o, pending) ← o.apply flag short written
    match pending, rest with
    | none, rest => collect o pathTaken leftOver rest
    | some flag, .plain next :: rest => collect (o.set flag (some next)) pathTaken leftOver rest
    | some flag, _ => throw (.valueMissing flag)

/-- Reads a command line; nothing may be left over. -/
def parse (args : List Text) : Except UsageError Options := do
  let (options, leftOver) ← collect .empty false [] (← tokens args)
  if leftOver.isEmpty then return options else throw (.unrecognized leftOver)

end EndpointRules.CommandLine
