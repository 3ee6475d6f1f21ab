import EndpointRules.CommandLine.Run
import EndpointRules.Text.Split

/-! The program. Files are read before the run, so that the run itself does no input. -/

namespace EndpointRules.CommandLine

def Options.paths (o : Options) : List Text :=
  [o.path.map normalizePath, o.paramsFile, o.tests.map normalizePath].filterMap id

/-- The number by which the system reports that a directory is no file. -/
def isDirectoryCode : UInt32 := 21

/-- The number by which the system reports a name that is too long: 36 below zero, as a word. -/
def nameTooLongCode : UInt32 := 4294967260

/-- The text of a file, or why there is none. -/
def readText (path : Text) : IO (Except FileError Text) := do
  if path.toList.contains '\x00' then return .error .nullInPath
  match path.string with
  | .error b => return .error (.other b.message)
  | .ok name =>
    try return .ok (.ofList (Text.unifyLineEnds (Text.toList (← IO.FS.readFile name))))
    catch e => match e with
      | .noFileOrDirectory _ _ _ => return .error (.absent path)
      | .permissionDenied _ _ _ => return .error (.denied path)
      | .inappropriateType _ code _ =>
        return .error (if code = isDirectoryCode then .directory path else .notDirectory path)
      | .invalidArgument _ code detail =>
        return .error (if code = nameTooLongCode then .nameTooLong path else .other detail)
      | e => return .error (.other (toString e))

/-- A reader of files that have been read before. -/
def readerOfTexts (texts : List (Text × Except FileError Text)) : Reader := fun path =>
  (Fields.get? path texts).getD (.error (.absent path))

/-- Writes a text to a stream, unless it cannot be encoded. -/
def write (stream : IO.FS.Stream) (text : Text) : IO Bool :=
  match text.string with
  | .ok s => do
    stream.putStr s
    return true
  | .error b => do
    (← IO.getStderr).putStrLn ((b.message.string.toOption).getD "")
    return false

/-- Runs the command line and gives the exit code. -/
def execute (args : List String) : IO UInt32 := do
  let output ← IO.getStdout
  let errors ← IO.getStderr
  match parse (args.map Text.ofString) with
  | .error e =>
    discard (write errors (usageText e))
    return 2
  | .ok o =>
    let texts ← o.paths.mapM fun path => return (path, ← readText path)
    let transcript := runOptions (readerOfTexts texts) o
    let written ← write output transcript.output
    discard (write errors (logText o.logLevel transcript.events))
    match transcript.ending with
    | .exit code => return if written then code.toUInt32 else 1
    | .broken e =>
      discard (write errors (plainLine e.message))
      return 1
    | .failed e =>
      discard (write errors (plainLine e.message))
      return 1
    | .notAPath =>
      discard (write errors (plainLine FileError.nullInPath.message))
      return 1

end EndpointRules.CommandLine

def main (args : List String) : IO UInt32 := EndpointRules.CommandLine.execute args
