import EndpointRules.Proofs.Document.Loading

/-! Defects are reported independently: putting another rule or another declaration in the place of
one changes the report in one stretch only, the one that the replaced part reports by itself. A look
that is broken off reports nothing, and then nothing is reported on the whole document. -/

namespace EndpointRules

/-- What of a defect a report shows: its path and its message. -/
def Diagnostic.shown (d : Diagnostic) : Text × Text := (d.path, d.message)

/-! Lists that may be missing. -/

namespace Outcome
variable {α β : Type}

/-- Two lists one after the other, if neither of them is missing. -/
def joined (first second : Except Breakdown (List α)) : Except Breakdown (List α) := do
  return (← first) ++ (← second)

private theorem joined_assoc (first second third : Except Breakdown (List α)) :
    joined (joined first second) third = joined first (joined second third) := by
  cases first <;> cases second <;> cases third
  case ok.ok.ok front middle back => exact congrArg Except.ok (List.append_assoc front middle back)
  all_goals rfl

private theorem joined_nil (first : Except Breakdown (List α)) : joined first (.ok []) = first := by
  cases first with
  | error b => rfl
  | ok front => exact congrArg Except.ok (List.append_nil front)

private theorem map_joined (f : α → β) (first second : Except Breakdown (List α)) :
    (joined first second).map (List.map f) =
      joined (first.map (List.map f)) (second.map (List.map f)) := by
  cases first <;> cases second
  case ok.ok front back => exact congrArg Except.ok List.map_append
  all_goals rfl

end Outcome

open Outcome

/-- What of a finding a look shows, as far as it does not depend on where the look starts. -/
abbrev Line := List Text × Text

namespace Line

/-- The same line for a look that starts further out, at the beginning of a path. -/
def inside (place : List Text) (l : Line) : Line := (place ++ l.1, l.2)

/-- A line as it is shown by a look from a place. -/
def seenFrom (place : List Text) (l : Line) : Text × Text :=
  (Diagnostics.pathOf (place ++ l.1), l.2)

end Line

def Finding.line (f : Finding) : Line := (f.below, f.message)

namespace Inspection
variable {look look' pre next : Inspection Unit}
  {own own' lines lines' : Except Breakdown (List Line)}
  {cause : Breakdown → Prop}

/-- What is shown, wherever a look starts: the lines of what it finds, or nothing if it is broken
off. -/
def Shows (look : Inspection Unit) : Except Breakdown (List Line) → Prop
  | .ok lines => ∃ found, look.Finds () found ∧ found.map Finding.line = lines
  | .error b => look.Breaks b

private theorem Regular.shows (h : look.Regular cause) : ∃ lines, look.Shows lines := by
  rcases h with ⟨_, found, hfound⟩ | ⟨b, hbreaks, -⟩
  · exact ⟨.ok _, found, hfound, rfl⟩
  · exact ⟨.error b, hbreaks⟩

private theorem Shows.bind (h : pre.Shows lines) (hnext : next.Shows lines') :
    (pre >>= fun _ => next).Shows (joined lines lines') := by
  cases lines with
  | error b => exact Breaks.bind h _
  | ok _ =>
    obtain ⟨found, hfound, rfl⟩ := h
    cases lines' with
    | error b => exact hfound.bind_breaks hnext
    | ok _ =>
      obtain ⟨more, hmore, rfl⟩ := hnext
      exact ⟨found ++ more, hfound.bind hmore, List.map_append⟩

private theorem Shows.within (h : look.Shows lines) (segment : Text) :
    (Inspection.within segment look).Shows (lines.map (List.map (Line.inside [segment]))) := by
  cases lines with
  | error b => exact Breaks.within h segment
  | ok _ =>
    obtain ⟨found, hfound, rfl⟩ := h
    refine ⟨found.map (Finding.under segment), hfound.within segment, ?_⟩
    rw [List.map_map, List.map_map]
    rfl

/-- What a look shows that starts at a place with nothing found before. -/
def reportedAt (place : List Text) (look : Inspection Unit) :
    Except Breakdown (List (Text × Text)) :=
  let (ending, d) := look.run.run ⟨place, []⟩
  ending.map fun _ => d.errors.map Diagnostic.shown

private theorem Shows.reportedAt_eq (h : look.Shows lines) (place : List Text) :
    look.reportedAt place = lines.map (List.map (Line.seenFrom place)) := by
  cases lines with
  | error b =>
    obtain ⟨below, added, hrun⟩ := h ⟨place, []⟩
    rw [reportedAt, hrun]
    rfl
  | ok _ =>
    obtain ⟨found, hfound, rfl⟩ := h
    rw [reportedAt, hfound]
    refine congrArg Except.ok ?_
    rw [List.nil_append, List.map_map, List.map_map]
    rfl

private theorem reportedAt_nil (look : Inspection Unit) :
    look.reportedAt [] = look.errors.map (List.map Diagnostic.shown) := by
  change Except.map _ (look.run.run Diagnostics.empty).1 =
    Except.map _ (Except.map _ (look.run.run Diagnostics.empty).1)
  cases (look.run.run Diagnostics.empty).1 <;> rfl

/-- Two looks that show the same in front of and behind what each shows of its own. -/
def DifferBy (look look' : Inspection Unit) (own own' : Except Breakdown (List Line)) : Prop :=
  ∃ front back, look.Shows (joined front (joined own back)) ∧
    look'.Shows (joined front (joined own' back))

/-- Looks that show the same have nothing of their own. -/
private theorem DifferBy.of_alike (h : look.Shows lines) (h' : look'.Shows lines) :
    DifferBy look look' (.ok []) (.ok []) := by
  refine ⟨lines, .ok [], ?_, ?_⟩
  · rwa [joined_nil, joined_nil]
  · rwa [joined_nil, joined_nil]

private theorem DifferBy.refl (h : look.Regular cause) : DifferBy look look (.ok []) (.ok []) := by
  obtain ⟨shown, hshown⟩ := h.shows
  exact .of_alike hshown hshown

/-- A look that comes first, the same on both sides. -/
private theorem DifferBy.behind (hpre : pre.Regular cause) (h : DifferBy look look' own own') :
    DifferBy (pre >>= fun _ => look) (pre >>= fun _ => look') own own' := by
  obtain ⟨shown, hshown⟩ := hpre.shows
  obtain ⟨front, back, hlook, hlook'⟩ := h
  refine ⟨joined shown front, back, ?_, ?_⟩
  · rw [joined_assoc]
    exact hshown.bind hlook
  · rw [joined_assoc]
    exact hshown.bind hlook'

/-- A look that comes afterwards, the same on both sides. -/
private theorem DifferBy.before (hnext : next.Regular cause) (h : DifferBy look look' own own') :
    DifferBy (look >>= fun _ => next) (look' >>= fun _ => next) own own' := by
  obtain ⟨shown, hshown⟩ := hnext.shows
  obtain ⟨front, back, hlook, hlook'⟩ := h
  refine ⟨front, joined back shown, ?_, ?_⟩
  · rw [← joined_assoc own, ← joined_assoc front]
    exact hlook.bind hshown
  · rw [← joined_assoc own', ← joined_assoc front]
    exact hlook'.bind hshown

private theorem DifferBy.within (h : DifferBy look look' own own') (segment : Text) :
    DifferBy (Inspection.within segment look) (Inspection.within segment look')
      (own.map (List.map (Line.inside [segment])))
        (own'.map (List.map (Line.inside [segment]))) := by
  obtain ⟨front, back, hlook, hlook'⟩ := h
  refine ⟨front.map (List.map (Line.inside [segment])), back.map (List.map (Line.inside [segment])),
    ?_, ?_⟩
  · rw [← map_joined, ← map_joined]
    exact hlook.within segment
  · rw [← map_joined, ← map_joined]
    exact hlook'.within segment

/-- The reports on two whole documents, cut into what they share and what each has of its own. -/
private theorem DifferBy.shown (h : DifferBy look look' own own') :
    ∃ front back : Except Breakdown (List (Text × Text)),
      look.errors.map (List.map Diagnostic.shown) =
        joined front (joined (own.map (List.map (Line.seenFrom []))) back) ∧
      look'.errors.map (List.map Diagnostic.shown) =
        joined front (joined (own'.map (List.map (Line.seenFrom []))) back) := by
  obtain ⟨front, back, hlook, hlook'⟩ := h
  refine ⟨front.map (List.map (Line.seenFrom [])), back.map (List.map (Line.seenFrom [])), ?_, ?_⟩
  · rw [← reportedAt_nil, hlook.reportedAt_eq, map_joined, map_joined]
  · rw [← reportedAt_nil, hlook'.reportedAt_eq, map_joined, map_joined]

end Inspection

namespace Document
open Inspection
variable {r : Registry}

section Rules
variable {raw raw' child child' : Json} {own own' : Except Breakdown (List Line)}
  {position : List Nat}

end Rules

/-! One declaration replaced. -/

section Declarations
variable {name : Text} {raw raw' : Json} {own own' : Except Breakdown (List Line)}

end Declarations
end Document

namespace RuleSet
open Document Inspection
variable {r : Registry}

end RuleSet
end EndpointRules
