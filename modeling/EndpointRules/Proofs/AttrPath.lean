import EndpointRules.Proofs.Text.Classes
import EndpointRules.Proofs.Typing.Values
import Mathlib.Data.List.TakeDrop
import Mathlib.Data.List.TakeWhile

/-! Attribute paths put together and written. A dot between two paths makes one path of them, which
leads where the second path leads from where the first one ends. A list of steps is read back from
the path in which it is written, unless an index has more digits than are read. -/

namespace EndpointRules

namespace Text
variable {c : CodePoint}

/-- A decimal digit of ASCII has its own value among the digits of all scripts. -/
private theorem digitValue?_of_isDigit (h : c.isDigit = true) :
    digitValue? c = some (c.toNat - 48) := by
  have hrange : (48 ≤ c.toNat && c.toNat < 48 + 10) = true := by
    obtain ⟨hlow, hhigh⟩ : 48 ≤ c.toNat ∧ c.toNat ≤ 57 := CodePoint.isDigit_iff.mp h
    rw [Bool.and_eq_true, decide_eq_true_eq, decide_eq_true_eq]
    omega
  have hfirst : (decimalZeros.find? fun base => base ≤ c.toNat && c.toNat < base + 10) = some 48 :=
    List.find?_cons_of_pos hrange
  rw [digitValue?, hfirst]
  rfl

end Text

namespace AttrPath

/-! Paths put together. -/

/-- The reading of two paths one after the other. -/
def Then (first second : Except Breakdown (Option (List AttrStep))) :
    Except Breakdown (Option (List AttrStep)) :=
  match first with
  | .error b => .error b
  | .ok none => .ok none
  | .ok (some front) => second.map (·.map (front ++ ·))

private theorem readSegments_append (front back : List (List CodePoint)) :
    readSegments (front ++ back) = Then (readSegments front) (readSegments back) := by
  induction front with
  | nil =>
    rw [List.nil_append]
    rcases readSegments back with b | _ | steps <;> rfl
  | cons cs rest ih =>
    rw [List.cons_append, readSegments, readSegments]
    cases segment? cs with
    | none => rfl
    | some segment =>
      dsimp only
      rw [ih]
      cases segment.read with
      | error b => rfl
      | ok steps =>
        rcases readSegments rest with b | _ | later
        · rfl
        · rfl
        · rcases readSegments back with b | _ | last
          · rfl
          · rfl
          · exact congrArg (fun all => Except.ok (some all))
              (List.append_assoc steps later last).symm

/-- A path with a dot in it is read in front of the dot and then behind it. -/
private theorem read_joined (p q : Text) : read (p ++ "." ++ q) = Then (read p) (read q) := by
  have hchars : (p ++ "." ++ q).toList = p.toList ++ .char '.' :: q.toList := by
    simp [Text.toList_append]
  rw [read, hchars, List.splitOn_append_cons_self, readSegments_append]
  rfl

private theorem follow_append (target : Option Value) (front back : List AttrStep) :
    follow target (front ++ back) = follow (follow target front) back :=
  List.foldl_append

private theorem follow_none (steps : List AttrStep) : follow none steps = none := by
  induction steps with
  | nil => rfl
  | cons step rest ih => exact ih

/-- What the function for attributes answers for a target, which may be absent, and a path. -/
def attributeAt (target : Option Value) (path : Text) : Except EvalError (Option Value) :=
  Registry.standard.call (.text "getAttr") [target, some (.string path)]

/-- A path that can be read is followed from any target. -/
theorem attributeAt_of_read {path : Text} {steps : List AttrStep}
    (h : read path = .ok (some steps)) (target : Option Value) :
    attributeAt target path = .ok (follow target steps) := by
  cases target with
  | none => exact congrArg Except.ok (follow_none steps).symm
  | some v => exact Function.getAttr_of_read h

/-- An ASCII letter or the underscore. -/
def NameStart (c : CodePoint) : Prop := ('A' ≤ c ∧ c ≤ 'Z') ∨ ('a' ≤ c ∧ c ≤ 'z') ∨ c = '_'

/-- The name of a field starts with a letter or underscore, and digits may follow too. -/
def FieldName (name : Text) : Prop :=
  ∃ first rest, name.toList = first :: rest ∧ NameStart first ∧
    ∀ c ∈ rest, NameStart c ∨ ('0' ≤ c ∧ c ≤ '9')

/-- Every index can be written in a path, and so can a field with such a name. -/
def Writable : AttrStep → Prop
  | .field name => FieldName name
  | .index _ => True

/-- A step as it is written at the start of a path. -/
def stepText : AttrStep → Text
  | .field name => name
  | .index position => Text.indexed "" position

/-- A later step of a path; a dot stands in front of a field. -/
def laterText : AttrStep → Text
  | .field name => "." ++ stepText (.field name)
  | .index position => stepText (.index position)

/-- The path in which steps are written. -/
def write : List AttrStep → Text
  | [] => ""
  | first :: rest => stepText first ++ Text.join (rest.map laterText)

private theorem isIdentStart_iff {c : CodePoint} : Text.isIdentStart c = true ↔ NameStart c := by
  rw [Text.isIdentStart, Bool.or_eq_true, CodePoint.isAlpha_iff, beq_iff_eq, NameStart, or_assoc]

private theorem isIdentRest_iff {c : CodePoint} :
    Text.isIdentRest c = true ↔ NameStart c ∨ ('0' ≤ c ∧ c ≤ '9') := by
  rw [Text.isIdentRest, Bool.or_eq_true, Text.isAlphanumeric_iff, beq_iff_eq, NameStart]
  tauto

/-- An index as it is written: its decimal digits between brackets. -/
private def indexChars (position : Nat) : List CodePoint :=
  .char '[' :: (Text.digits position ++ [.char ']'])

private theorem toList_index (position : Nat) :
    (stepText (.index position)).toList = indexChars position :=
  Text.toList_indexed "" position

/-- A number as it is written. -/
private def written (position : Nat) : Numeral := ⟨(Text.digits position).length, position⟩

/-- Digits of an index are read up to the bracket behind them. -/
private theorem moreDigits?_digits {digits : List CodePoint} (h : ∀ c ∈ digits, c.isDigit = true)
    (index : Numeral) (rest : List CodePoint) :
    moreDigits? index (digits ++ .char ']' :: rest) = (indices? rest).map
      (digits.foldl (fun read c => read.push (c.toNat - 48)) index :: ·) := by
  induction digits generalizing index with
  | nil =>
    rw [List.nil_append, moreDigits?, if_pos rfl]
    rfl
  | cons c digits ih =>
    obtain ⟨hc, hdigits⟩ := List.forall_mem_cons.mp h
    have hne : c ≠ ']' := by
      rintro rfl
      cases hc
    rw [List.cons_append, moreDigits?, if_neg hne, Text.digitValue?_of_isDigit hc, List.foldl_cons]
    exact ih hdigits _

/-- A numeral that is read digit by digit has the value and the number of the digits. -/
private theorem foldl_push (digits : List CodePoint) (index : Numeral) :
    digits.foldl (fun read c => read.push (c.toNat - 48)) index =
      ⟨index.digits + digits.length,
        digits.foldl (fun value c => 10 * value + (c.toNat - 48)) index.value⟩ := by
  induction digits generalizing index with
  | nil => rfl
  | cons c digits ih =>
    have hlength : index.digits + 1 + digits.length = index.digits + (c :: digits).length := by
      rw [List.length_cons]
      omega
    rw [List.foldl_cons, ih, Numeral.push, hlength, List.foldl_cons]

private theorem indices?_index (position : Nat) (rest : List CodePoint) :
    indices? (indexChars position ++ rest) = (indices? rest).map (written position :: ·) := by
  have hdigits : ∀ c ∈ Text.digits position, c.isDigit = true := fun c hc =>
    Text.isDigit_of_mem_digits hc
  have hread : (Text.digits position).foldl (fun read c => read.push (c.toNat - 48))
      Numeral.empty = written position := by
    rw [foldl_push, written, Numeral.empty, Nat.zero_add]
    exact congrArg (Numeral.mk _) (Text.decimalValue_digits position)
  have hwritten : indices? (indexChars position ++ rest) =
      firstDigit? (Text.digits position ++ .char ']' :: rest) := by
    rw [indexChars, List.cons_append, indices?, if_pos rfl, List.append_assoc]
    rfl
  rw [hwritten, ← hread]
  cases hchars : Text.digits position with
  | nil => exact absurd hchars (Text.digits_ne_nil position)
  | cons c digits =>
    rw [hchars] at hdigits
    obtain ⟨hc, hdigits⟩ := List.forall_mem_cons.mp hdigits
    rw [List.cons_append, firstDigit?, Text.digitValue?_of_isDigit hc, List.foldl_cons]
    exact moreDigits?_digits hdigits _ rest

private theorem indices?_written (positions : List Nat) :
    indices? (positions.flatMap indexChars) = some (positions.map written) := by
  induction positions with
  | nil => rfl
  | cons position rest ih =>
    rw [List.flatMap_cons, indices?_index, ih]
    rfl

/-- A name is read up to the first character that does not belong to it. -/
private theorem plainSegment?_of_name {start : CodePoint} {rest after : List CodePoint}
    (hstart : NameStart start)
    (hrest : ∀ c ∈ rest, NameStart c ∨ ('0' ≤ c ∧ c ≤ '9'))
    (hafter : after.takeWhile Text.isIdentRest = []) :
    plainSegment? (start :: rest ++ after) =
      (indices? after).map fun indices => ⟨some (Text.ofList (start :: rest)), indices⟩ := by
  have hall : ∀ c ∈ start :: rest, Text.isIdentRest c = true :=
    List.forall_mem_cons.mpr ⟨isIdentRest_iff.mpr (.inl hstart),
      fun c hc => isIdentRest_iff.mpr (hrest c hc)⟩
  have hdrop : after.dropWhile Text.isIdentRest = after := by
    have hsplit := List.takeWhile_append_dropWhile (p := Text.isIdentRest) (l := after)
    rwa [hafter, List.nil_append] at hsplit
  have hspan : (start :: rest ++ after).span Text.isIdentRest = (start :: rest, after) := by
    rw [List.span_eq_takeWhile_dropWhile, List.takeWhile_append_of_pos hall,
      List.dropWhile_append_of_pos hall, hafter, hdrop, List.append_nil]
  rw [List.cons_append] at hspan ⊢
  rw [plainSegment?.eq_2, if_pos (isIdentStart_iff.mpr hstart), hspan]

private theorem toList_write (first : AttrStep) (rest : List AttrStep) :
    (write (first :: rest)).toList =
      (stepText first).toList ++ rest.flatMap fun step => (laterText step).toList := by
  rw [write, Text.toList_append, Text.toList_join, List.flatMap_map]

/-- A dot stands between what is written before a field and the field with all that follows. -/
private theorem write_append_field (first : AttrStep) (rest : List AttrStep) (name : Text)
    (more : List AttrStep) : write (first :: rest ++ .field name :: more) =
      write (first :: rest) ++ "." ++ write (.field name :: more) := by
  apply Text.toList_inj.mp
  rw [List.cons_append, Text.toList_append, Text.toList_append, toList_write, toList_write,
    toList_write, List.flatMap_append, List.flatMap_cons, laterText, Text.toList_append]
  simp only [List.append_assoc]

/-- The characters of a segment that is written. -/
private def IsSegmentChar (c : CodePoint) : Prop := Text.isIdentRest c = true ∨ c = '[' ∨ c = ']'

private theorem isSegmentChar_of_index {position : Nat} {c : CodePoint}
    (h : c ∈ indexChars position) : IsSegmentChar c := by
  rcases List.mem_cons.mp h with rfl | h
  · exact .inr (.inl rfl)
  · rcases List.mem_append.mp h with h | h
    · have hdigit : c.isDigit = true := Text.isDigit_of_mem_digits h
      left
      rw [Text.isIdentRest, Text.isAlphanumeric, hdigit, Bool.or_true, Bool.true_or]
    · exact .inr (.inr (List.mem_singleton.mp h))

/-- Steps as they are read from where they are written: an index that is too long breaks it off. -/
def readSteps : List AttrStep → Except Breakdown (List AttrStep)
  | [] => .ok []
  | .field name :: rest => do return .field name :: (← readSteps rest)
  | .index position :: rest => do return .index (← (written position).read) :: (← readSteps rest)

private theorem readIndices_written (positions : List Nat) :
    readIndices (positions.map written) = readSteps (positions.map .index) := by
  induction positions with
  | nil => rfl
  | cons position rest ih =>
    rw [List.map_cons, List.map_cons, readIndices, readSteps, ih]

private theorem readSteps_append (front back : List AttrStep) :
    readSteps (front ++ back) = do return (← readSteps front) ++ (← readSteps back) := by
  induction front with
  | nil =>
    rw [List.nil_append]
    cases readSteps back <;> rfl
  | cons step rest ih =>
    cases step with
    | field name =>
      rw [List.cons_append, readSteps, readSteps, ih]
      cases readSteps rest <;> cases readSteps back <;> rfl
    | index position =>
      rw [List.cons_append, readSteps, readSteps, ih]
      cases (written position).read <;> cases readSteps rest <;> cases readSteps back <;> rfl

section Segment
variable {first : AttrStep} (h : Writable first) (positions : List Nat)

/-- A step at the start of a segment and the indices that follow it, as they are written. -/
private def segmentChars (first : AttrStep) (positions : List Nat) : List CodePoint :=
  (stepText first).toList ++ positions.flatMap indexChars

private theorem toList_write_segment :
    (write (first :: positions.map .index)).toList = segmentChars first positions := by
  rw [toList_write, segmentChars, List.flatMap_map]
  refine congrArg (_ ++ ·) (List.flatMap_congr fun position _ => ?_)
  exact toList_index position

include h

private theorem isSegmentChar_of_mem {c : CodePoint} (hc : c ∈ segmentChars first positions) :
    IsSegmentChar c := by
  rcases List.mem_append.mp hc with hc | hc
  · cases first with
    | field name =>
      obtain ⟨start, rest, hname, hstart, hrest⟩ := h
      rw [stepText, hname] at hc
      rcases List.mem_cons.mp hc with rfl | hc
      · exact .inl (isIdentRest_iff.mpr (.inl hstart))
      · exact .inl (isIdentRest_iff.mpr (hrest c hc))
    | index position => exact isSegmentChar_of_index (toList_index position ▸ hc)
  · obtain ⟨position, -, hc⟩ := List.mem_flatMap.mp hc
    exact isSegmentChar_of_index hc

private theorem plainSegment?_written : ∃ segment,
    plainSegment? (segmentChars first positions) = some segment ∧
      segment.read = readSteps (first :: positions.map .index) := by
  cases first with
  | field name =>
    obtain ⟨start, rest, hname, hstart, hrest⟩ := h
    have hafter : (positions.flatMap indexChars).takeWhile Text.isIdentRest = [] := by
      cases positions <;> rfl
    refine ⟨⟨some name, positions.map written⟩, ?_, ?_⟩
    · rw [segmentChars, stepText, hname, plainSegment?_of_name hstart hrest hafter,
        indices?_written, ← hname, Text.ofList_toList]
      rfl
    · rw [readSteps, ← readIndices_written]
      rfl
  | index position =>
    have hchars : segmentChars (.index position) positions =
        (position :: positions).flatMap indexChars := by
      rw [segmentChars, toList_index, List.flatMap_cons]
    refine ⟨⟨none, (position :: positions).map written⟩, ?_, ?_⟩
    · rw [hchars]
      exact congrArg (Option.map _) (indices?_written (position :: positions))
    · have hindices := readIndices_written (position :: positions)
      have hsteps : readSteps (.index position :: positions.map .index) =
          readIndices ((position :: positions).map written) := hindices.symm
      rw [hsteps, Segment.read]
      cases readIndices ((position :: positions).map written) <;> rfl

/-- A segment that is written is a path of its own. -/
private theorem read_write_segment : read (write (first :: positions.map .index)) =
    (readSteps (first :: positions.map .index)).map some := by
  have hmem {c : CodePoint} (hc : c ∈ segmentChars first positions) : c ≠ '.' ∧ c ≠ '\n' := by
    have hchar := isSegmentChar_of_mem h positions hc
    constructor <;>
    · rintro rfl
      revert hchar
      unfold IsSegmentChar
      decide
  have hcut : (segmentChars first positions).splitOn (.char '.') = [segmentChars first positions] :=
    List.splitOn_eq_singleton fun hc => (hmem hc).1 rfl
  have hplain : Text.dropFinalNewline (segmentChars first positions) =
      segmentChars first positions :=
    if_neg fun hlast => (hmem (List.mem_of_mem_getLast? hlast)).2 rfl
  have hne : segmentChars first positions ≠ [] := by
    cases first with
    | field name =>
      obtain ⟨start, rest, hname, -⟩ := h
      rw [segmentChars, stepText, hname]
      exact List.cons_ne_nil _ _
    | index position =>
      rw [segmentChars, toList_index]
      exact List.cons_ne_nil _ _
  obtain ⟨segment, hsegment, hread⟩ := plainSegment?_written h positions
  rw [read, toList_write_segment, hcut, readSegments, segment?, List.isEmpty_eq_false_iff.mpr hne,
    hplain, if_neg Bool.false_ne_true, hsegment]
  dsimp only
  rw [hread]
  cases readSteps (first :: positions.map .index) with
  | error b => rfl
  | ok steps => exact congrArg (fun all => Except.ok (some all)) (List.append_nil steps)

end Segment

/-- Steps are read from the path in which they are written. The induction moves the indices that
follow a step into its segment; a field starts a path of its own. -/
private theorem read_write_append (rest : List AttrStep) (hall : ∀ step ∈ rest, Writable step)
    {first : AttrStep} (h : Writable first) (positions : List Nat) :
    read (write (first :: positions.map .index ++ rest)) =
      (readSteps (first :: positions.map .index ++ rest)).map some := by
  induction rest generalizing first positions with
  | nil =>
    rw [List.append_nil]
    exact read_write_segment h positions
  | cons step rest ih =>
    obtain ⟨hstep, hrest⟩ := List.forall_mem_cons.mp hall
    cases step with
    | field name =>
      have hfield : read (write (.field name :: rest)) =
          (readSteps (.field name :: rest)).map some := ih hrest hstep []
      rw [write_append_field, read_joined, read_write_segment h positions, hfield,
        readSteps_append]
      cases readSteps (first :: positions.map .index) <;>
        cases readSteps (.field name :: rest) <;> rfl
    | index position =>
      have hmoved : first :: positions.map .index ++ .index position :: rest =
          first :: (positions ++ [position]).map .index ++ rest := by simp
      rw [hmoved]
      exact ih hrest h (positions ++ [position])

private theorem read_write {steps : List AttrStep} (hne : steps ≠ [])
    (hall : ∀ step ∈ steps, Writable step) : read (write steps) = (readSteps steps).map some := by
  cases steps with
  | nil => exact absurd rfl hne
  | cons first rest =>
    obtain ⟨hfirst, hrest⟩ := List.forall_mem_cons.mp hall
    exact read_write_append rest hrest hfirst []

/-- A step that can be read back: an index has no more digits than are read. -/
def Readable : AttrStep → Prop
  | .field _ => True
  | .index position => position < 10 ^ digitLimit

instance : DecidablePred Readable
  | .field _ => isTrue trivial
  | .index position => inferInstanceAs (Decidable (position < 10 ^ digitLimit))

private theorem written_read_iff {position : Nat} :
    (written position).read = .ok position ↔ position < 10 ^ digitLimit := by
  have hdigits : (Text.digits position).length ≤ digitLimit ↔ position < 10 ^ digitLimit :=
    Text.length_digits_le_iff (by decide)
  rw [← hdigits, Numeral.read, written]
  dsimp only
  split
  · next hshort => exact iff_of_true rfl hshort
  · next hlong => exact iff_of_false nofun hlong

private theorem readSteps_of_readable {steps : List AttrStep} (h : ∀ step ∈ steps, Readable step) :
    readSteps steps = .ok steps := by
  induction steps with
  | nil => rfl
  | cons step rest ih =>
    obtain ⟨hstep, hrest⟩ := List.forall_mem_cons.mp h
    cases step with
    | field name =>
      rw [readSteps, ih hrest]
      rfl
    | index position =>
      rw [readSteps, written_read_iff.mpr hstep, ih hrest]
      rfl

/-- An index that is too long breaks the reading of its steps off. -/
private theorem readSteps_of_not_readable {steps : List AttrStep}
    (h : ∃ step ∈ steps, ¬ Readable step) :
    ∃ n, digitLimit < n ∧ readSteps steps = .error (.longNumeral n) := by
  induction steps with
  | nil =>
    obtain ⟨_, hmem, -⟩ := h
    cases hmem
  | cons step rest ih =>
    have hrest (hlater : ∃ later ∈ rest, ¬ Readable later) := ih hlater
    cases step with
    | field name =>
      obtain ⟨later, hmem, hlater⟩ := h
      rcases List.mem_cons.mp hmem with rfl | hmem
      · exact absurd trivial hlater
      · obtain ⟨n, hn, hread⟩ := hrest ⟨later, hmem, hlater⟩
        exact ⟨n, hn, by rw [readSteps, hread]; rfl⟩
    | index position =>
      cases hread : (written position).read with
      | error b =>
        obtain ⟨hn, rfl⟩ := Numeral.read_error_iff.mp hread
        exact ⟨_, hn, by rw [readSteps, hread]; rfl⟩
      | ok value =>
        obtain rfl : value = position := by
          unfold Numeral.read at hread
          split at hread
          · exact (Except.ok.inj hread).symm
          · cases hread
        obtain ⟨later, hmem, hlater⟩ := h
        rcases List.mem_cons.mp hmem with rfl | hmem
        · exact absurd (written_read_iff.mp hread) hlater
        · obtain ⟨n, hn, hread'⟩ := hrest ⟨later, hmem, hlater⟩
          exact ⟨n, hn, by rw [readSteps, hread, hread']; rfl⟩

/-- The index with the fewest digits that are too many. -/
def longIndex : AttrStep := .index (10 ^ digitLimit)

private theorem longIndex_not_readable : ¬ Readable longIndex := Nat.lt_irrefl _

@[irreducible]
def longPath : Text := write [longIndex]

theorem read_longPath : ∃ n, digitLimit < n ∧ read longPath = .error (.longNumeral n) := by
  obtain ⟨n, hn, hread⟩ :=
    readSteps_of_not_readable ⟨longIndex, List.mem_singleton_self _, longIndex_not_readable⟩
  have hall : ∀ step ∈ [longIndex], Writable step := List.forall_mem_singleton.mpr trivial
  refine ⟨n, hn, ?_⟩
  rw [longPath, read_write (List.cons_ne_nil _ _) hall, hread]
  rfl

theorem mem_longPath {c : CodePoint} (h : c ∈ longPath.toList) :
    c = '[' ∨ c = ']' ∨ c.isDigit = true := by
  rw [longPath, toList_write, List.flatMap_nil, List.append_nil, longIndex, toList_index] at h
  rcases List.mem_cons.mp h with h | h
  · exact .inl h
  · rcases List.mem_append.mp h with h | h
    · exact .inr (.inr (Text.isDigit_of_mem_digits h))
    · exact .inr (.inl (List.mem_singleton.mp h))

/-- A path with a dot between two paths is read as the first path and then as the second one, and it
is malformed or cannot be read where the first of them is or cannot be. So asking for the attribute
at the second path of what the first one leads to is asking at the joined path; this holds for
absent targets too. Steps are read back from the path in which they are written, but an index with
too many digits breaks the reading off. -/
theorem paths_compose (p q : Text) :
    (read (p ++ "." ++ q) = Then (read p) (read q)) ∧
    (∀ front back, read p = .ok (some front) → read q = .ok (some back) →
      read (p ++ "." ++ q) = .ok (some (front ++ back)) ∧
      ∀ target : Option Value, ∃ middle answer, attributeAt target p = .ok middle ∧
        attributeAt middle q = .ok answer ∧ attributeAt target (p ++ "." ++ q) = .ok answer) ∧
    ∀ steps : List AttrStep, steps ≠ [] → (∀ step ∈ steps, Writable step) →
      ((∀ step ∈ steps, Readable step) → read (write steps) = .ok (some steps)) ∧
      ((∃ step ∈ steps, ¬ Readable step) →
        ∃ n, digitLimit < n ∧ read (write steps) = .error (.longNumeral n)) := by
  refine ⟨read_joined p q, ?_, ?_⟩
  · intro front back hfront hback
    have hjoined : read (p ++ "." ++ q) = .ok (some (front ++ back)) := by
      rw [read_joined, hfront, hback]
      rfl
    refine ⟨hjoined, fun target => ⟨_, _, attributeAt_of_read hfront target,
      attributeAt_of_read hback _, ?_⟩⟩
    rw [attributeAt_of_read hjoined, follow_append]
  · intro steps hne hall
    rw [read_write hne hall]
    constructor
    · intro hreadable
      rw [readSteps_of_readable hreadable]
      rfl
    · intro hlong
      obtain ⟨n, hn, hread⟩ := readSteps_of_not_readable hlong
      exact ⟨n, hn, by rw [hread]; rfl⟩

/-- Steps that begin with an index. -/
def sampleSteps : List AttrStep := [.index 2, .field "b_1", .index 10, .index 0, .field "_"]

private theorem sampleSteps_writable : ∀ step ∈ sampleSteps, Writable step := by
  have hname : FieldName "b_1" := ⟨'b', [.char '_', .char '1'], rfl, by unfold NameStart; decide⟩
  have hunderscore : FieldName "_" := ⟨'_', [], rfl, by unfold NameStart; decide⟩
  simp [sampleSteps, Writable, hname, hunderscore]

/-- A list in a record, whose first item is a record. -/
def sampleTarget : Value := .record [("a", .list [.record [("b", .string "x")]])]

theorem paths_compose_sample :
    read "a[0]" = .ok (some [.field "a", .index 0]) ∧ read "b" = .ok (some [.field "b"]) ∧
    (∃ middle answer, attributeAt (some sampleTarget) "a[0]" = .ok middle ∧
      attributeAt middle "b" = .ok answer ∧
      attributeAt (some sampleTarget) ("a[0]" ++ "." ++ "b") = .ok answer) ∧
    attributeAt (some sampleTarget) "a[0].b" = .ok (some (.string "x")) ∧
    (∀ step ∈ sampleSteps, Writable step) ∧ write sampleSteps = "[2].b_1[10][0]._" ∧
    read (write sampleSteps) = .ok (some sampleSteps) ∧
    ∃ n, digitLimit < n ∧ read (write [longIndex]) = .error (.longNumeral n) := by
  have hfront : read "a[0]" = .ok (some [.field "a", .index 0]) := by decide +kernel
  have hback : read "b" = .ok (some [.field "b"]) := by decide +kernel
  obtain ⟨-, hpaths, hwritten⟩ := paths_compose "a[0]" "b"
  have hreadable : ∀ step ∈ sampleSteps, Readable step := by decide +kernel
  exact ⟨hfront, hback, (hpaths _ _ hfront hback).2 (some sampleTarget), by decide +kernel,
    sampleSteps_writable, by decide +kernel,
    (hwritten sampleSteps (List.cons_ne_nil _ _) sampleSteps_writable).1 hreadable,
    (hwritten [longIndex] (List.cons_ne_nil _ _) (List.forall_mem_singleton.mpr trivial)).2
      ⟨longIndex, List.mem_singleton_self _, longIndex_not_readable⟩⟩

/-- An index with too many digits is not read back from the path in which it is written. -/
theorem write_unread : ∃ (steps : List AttrStep) (n : Nat), steps ≠ [] ∧
    (∀ step ∈ steps, Writable step) ∧ read (write steps) = .error (.longNumeral n) := by
  obtain ⟨n, -, hread⟩ := read_longPath
  rw [longPath] at hread
  exact ⟨[longIndex], n, List.cons_ne_nil _ _, List.forall_mem_singleton.mpr trivial, hread⟩

end AttrPath
end EndpointRules
