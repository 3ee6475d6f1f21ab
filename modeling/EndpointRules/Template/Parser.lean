import EndpointRules.Template.Basic

/-! Reading templates. A doubled brace stands for itself, and single braces enclose a
placeholder. -/

namespace EndpointRules.Template

/-- Why a source is no template. -/
inductive SyntaxError where
  | unclosed (offset : Nat) (source : Text)
  | nested (offset : Nat) (source : Text)
  | unmatched (offset : Nat) (source : Text)
  | placeholder (body source : Text)
  | attributePath (body source : Text)
  deriving DecidableEq, Repr

def SyntaxError.message : SyntaxError → Text
  | .unclosed offset source =>
    "unclosed '\x7b' at offset " ++ toString offset ++ " in " ++ Text.quoted source
  | .nested offset source =>
    "nested '\x7b' at offset " ++ toString offset ++ " in " ++ Text.quoted source
  | .unmatched offset source =>
    "unmatched '\x7d' at offset " ++ toString offset ++ " in " ++ Text.quoted source
  | .placeholder body source =>
    "invalid placeholder \x7b" ++ body ++ "\x7d in " ++ Text.quoted source
  | .attributePath body source =>
    "invalid attribute path in \x7b" ++ body ++ "\x7d in " ++ Text.quoted source

/-- Reading ends early at an error, or at an index of a path that is too long to be read. -/
inductive Failure where
  | malformed (e : SyntaxError)
  | breakdown (b : Breakdown)
  deriving DecidableEq, Repr

def Failure.message : Failure → Text
  | .malformed e => e.message
  | .breakdown b => b.message

/-- The placeholder that the text between two braces describes. -/
def placeholder (source : Text) (body : List CodePoint) : Except Failure Part :=
  let (name, path) := match Text.cutAt? '#' body with
    | none => (body, none)
    | some (name, path) => (name, some (Text.ofList path))
  if !Text.isIdent name then .error (.malformed (.placeholder (Text.ofList body) source))
  else match path with
    | none => .ok (.placeholder (Text.ofList name) none)
    | some path => do
      match ← (AttrPath.read path).mapError Failure.breakdown with
      | none => throw (.malformed (.attributePath (Text.ofList body) source))
      | some _ => return .placeholder (Text.ofList name) (some path)

/-- Text that has been collected in reverse, as a part unless it is empty. -/
def flush : (collected : List CodePoint) → List Part
  | [] => []
  | collected => [.text (Text.ofList collected.reverse)]

mutual
/-- Parts of a text that starts at an offset, after text that has been collected in reverse. -/
def outside (source : Text) (offset : Nat) (collected : List CodePoint) :
    List CodePoint → Except Failure (List Part)
  | [] => .ok (flush collected)
  | .char '\x7b' :: .char '\x7b' :: rest => outside source (offset + 2) ('\x7b' :: collected) rest
  | .char '\x7b' :: rest => (inside source offset [] rest).map (flush collected ++ ·)
  | .char '\x7d' :: .char '\x7d' :: rest => outside source (offset + 2) ('\x7d' :: collected) rest
  | .char '\x7d' :: _ => .error (.malformed (.unmatched offset source))
  | c :: rest => outside source (offset + 1) (c :: collected) rest

/-- Parts from the inside of a placeholder on whose brace is at an offset; its body has been
collected in reverse. -/
def inside (source : Text) (offset : Nat) (body : List CodePoint) :
    List CodePoint → Except Failure (List Part)
  | [] => .error (.malformed (.unclosed offset source))
  | c :: rest =>
    if c = '\x7d' then
      if body.contains '\x7b' then .error (.malformed (.nested offset source))
      else do
        let part ← placeholder source body.reverse
        return part :: (← outside source (offset + body.length + 2) [] rest)
    else inside source offset (c :: body) rest
end

def parse (source : Text) : Except Failure Template :=
  (outside source 0 [] source.toList).map (⟨source, ·⟩)

end EndpointRules.Template
