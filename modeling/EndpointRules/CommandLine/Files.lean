import EndpointRules.Text.Literal
import EndpointRules.Text.Split

/-! Paths, and what reading them can give. -/

namespace EndpointRules.CommandLine

/-- Why a file cannot be read. A text that holds a null character is no path at all, so nothing is
looked up for it. -/
inductive FileError where
  | absent (path : Text)
  | directory (path : Text)
  | notDirectory (path : Text)
  | nameTooLong (path : Text)
  | denied (path : Text)
  | nullInPath
  | other (message : Text)
  deriving DecidableEq, Repr

def FileError.message : FileError → Text
  | .absent path => "[Errno 2] No such file or directory: " ++ Text.quoted path
  | .denied path => "[Errno 13] Permission denied: " ++ Text.quoted path
  | .notDirectory path => "[Errno 20] Not a directory: " ++ Text.quoted path
  | .directory path => "[Errno 21] Is a directory: " ++ Text.quoted path
  | .nameTooLong path => "[Errno 36] File name too long: " ++ Text.quoted path
  | .nullInPath => "embedded null byte"
  | .other message => message

abbrev Reader := Text → Except FileError Text

/-- The names in a path; between neighbouring slashes, and behind a last one, the name is empty. -/
def pathNames (path : Text) : List Text :=
  (path.toList.splitOn (.char '/')).map Text.ofList

/-- The name leads nowhere else than where it is read. -/
def isIdleName (name : Text) : Bool := name = "" || name = "."

def normalizePath (path : Text) : Text :=
  let start := match path.toList with
    | .char '/' :: .char '/' :: .char '/' :: _ => "/"
    | .char '/' :: .char '/' :: _ => "//"
    | .char '/' :: _ => "/"
    | _ => ""
  let names := (pathNames path).filter fun name => !isIdleName name
  if start = "" ∧ names.isEmpty then "." else start ++ Text.intercalate "/" names

end EndpointRules.CommandLine
