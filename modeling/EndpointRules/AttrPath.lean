import EndpointRules.Breakdown
import EndpointRules.Text.Classes
import EndpointRules.Text.Split
import EndpointRules.Value.Basic

/-! Attribute paths such as `a.b[0]`, which lead into records and lists. -/

namespace EndpointRules

/-- One step into a value. -/
inductive AttrStep where
  | field (name : Text)
  | index (position : Nat)
  deriving DecidableEq, Repr

namespace AttrPath

mutual
/-- Indices in brackets up to the end of a segment. -/
def indices? : List CodePoint → Option (List Numeral)
  | [] => some []
  | c :: rest => if c = '[' then firstDigit? rest else none

def firstDigit? : List CodePoint → Option (List Numeral)
  | [] => none
  | c :: rest => (Text.digitValue? c).bind fun digit => moreDigits? (Numeral.empty.push digit) rest

/-- Further digits of an index up to its closing bracket. -/
def moreDigits? (index : Numeral) : List CodePoint → Option (List Numeral)
  | [] => none
  | c :: rest =>
    if c = ']' then (indices? rest).map (index :: ·)
    else (Text.digitValue? c).bind fun digit => moreDigits? (index.push digit) rest
end

/-- What stands between two dots of a path. -/
structure Segment where
  name : Option Text
  indices : List Numeral
  deriving DecidableEq, Repr

/-- A segment without a line feed at its end: an optional name and then indices. -/
def plainSegment? (cs : List CodePoint) : Option Segment :=
  match cs with
  | [] => some ⟨none, []⟩
  | c :: _ =>
    if Text.isIdentStart c then
      let (name, rest) := cs.span Text.isIdentRest
      (indices? rest).map fun indices => ⟨some (Text.ofList name), indices⟩
    else (indices? cs).map fun indices => ⟨none, indices⟩

/-- A segment is not empty, and one line feed may follow it. -/
def segment? (cs : List CodePoint) : Option Segment :=
  if cs.isEmpty then none else plainSegment? (Text.dropFinalNewline cs)

def readIndices : List Numeral → Except Breakdown (List AttrStep)
  | [] => .ok []
  | index :: rest => do return .index (← index.read) :: (← readIndices rest)

/-- The steps of a segment, the name first. -/
def Segment.read (segment : Segment) : Except Breakdown (List AttrStep) := do
  return (segment.name.map AttrStep.field).toList ++ (← readIndices segment.indices)

/-- Segments are read one after another. The first malformed one ends the reading, and so does an
index that is too long to be read. -/
def readSegments : List (List CodePoint) → Except Breakdown (Option (List AttrStep))
  | [] => .ok (some [])
  | cs :: rest =>
    match segment? cs with
    | none => .ok none
    | some segment => do
      let steps ← segment.read
      return (← readSegments rest).map (steps ++ ·)

/-- The steps of a path, unless it is malformed. -/
def read (path : Text) : Except Breakdown (Option (List AttrStep)) :=
  readSegments (path.toList.splitOn (.char '.'))

/-- One step into a value; a step that does not apply leads nowhere. -/
def step? : AttrStep → Value → Option Value
  | .field name, .record fields => Fields.get? name fields
  | .index position, .list items => items[position]?
  | _, _ => none

/-- Follows a path into a value that may be absent. -/
def follow (target : Option Value) (steps : List AttrStep) : Option Value :=
  steps.foldl (fun current step => current.bind (step? step)) target

end AttrPath
end EndpointRules
