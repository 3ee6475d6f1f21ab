import EndpointRules.AttrPath

/-! Templates: string literals with placeholders. In the source of a template the braces of a text
are doubled, and single braces enclose a placeholder. -/

namespace EndpointRules

/-- A part of a template. -/
inductive Template.Part where
  | text (text : Text)
  | placeholder (name : Text) (path : Option Text)
  deriving DecidableEq, Repr

/-- A parsed string literal beside its source. -/
structure Template where
  source : Text
  parts : List Template.Part
  deriving DecidableEq, Repr

namespace Template

def label (name : Text) : Option Text → Text
  | none => name
  | some path => name ++ "#" ++ path

def Part.isText : Part → Bool
  | .text _ => true
  | .placeholder _ _ => false

def Part.reference? : Part → Option Text
  | .text _ => none
  | .placeholder name _ => some name

/-- A template without placeholders is constant. -/
def isConstant (t : Template) : Bool := t.parts.all Part.isText

/-- The names that the placeholders refer to, in order and with repetitions. -/
def references (t : Template) : List Text := t.parts.filterMap Part.reference?

def isBrace (c : CodePoint) : Bool := c = '\x7b' || c = '\x7d'

/-- A text with each of its braces doubled. -/
def escape : List CodePoint → List CodePoint
  | [] => []
  | c :: rest => if isBrace c then c :: c :: escape rest else c :: escape rest

theorem escape_append (cs more : List CodePoint) :
    escape (cs ++ more) = escape cs ++ escape more := by
  induction cs with
  | nil => rfl
  | cons c rest ih => cases hc : isBrace c <;> simp [escape, hc, ih]

def Part.chars : Part → List CodePoint
  | .text s => escape s.toList
  | .placeholder name path => .char '\x7b' :: (label name path).toList ++ [.char '\x7d']

/-- The source of a template with these parts. -/
def print (parts : List Part) : Text := Text.ofList (parts.flatMap Part.chars)

end Template
end EndpointRules
