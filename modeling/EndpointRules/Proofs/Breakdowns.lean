import EndpointRules.Proofs.Fields
import EndpointRules.Proofs.Outcome
import EndpointRules.Proofs.Text.Pieces
import EndpointRules.Template.Parser
import Mathlib.Data.List.TakeDrop

/-! What breaks off a look at a datum stands in the datum: a text with more decimal digits in a row
than are read, or a whole number with more digits than are written. -/

namespace EndpointRules

namespace Text
variable {n : Nat} {cs ds : List CodePoint}

/-- So many decimal digits, of any script, stand in a row in a text. -/
def HasDigits (n : Nat) (cs : List CodePoint) : Prop :=
  ∃ digits, digits <:+: cs ∧ digits.length = n ∧ ∀ c ∈ digits, (digitValue? c).isSome = true

private theorem HasDigits.mono (h : HasDigits n cs) (hpart : cs <:+: ds) : HasDigits n ds := by
  obtain ⟨digits, hdigits, hrest⟩ := h
  exact ⟨digits, hdigits.trans hpart, hrest⟩

private theorem dropFinalNewline_prefix (cs : List CodePoint) : dropFinalNewline cs <+: cs := by
  unfold dropFinalNewline
  split
  · exact List.dropLast_prefix cs
  · exact List.prefix_rfl

end Text

/-- A numeral that is read has at most so many digits. -/
theorem Numeral.read_error_iff {index : Numeral} {b : Breakdown} :
    index.read = .error b ↔ digitLimit < index.digits ∧ b = .longNumeral index.digits := by
  unfold read
  split
  · next h => simp [Nat.not_lt.mpr h]
  · next h => simp [Nat.lt_of_not_le h, eq_comm]

namespace AttrPath

mutual
/-- The digits of an index stand in a row. -/
private theorem hasDigits_of_indices : (cs : List CodePoint) → {indices : List Numeral} →
    indices? cs = some indices → ∀ index ∈ indices, Text.HasDigits index.digits cs
  | [], _, h => by
    obtain rfl := Option.some.inj h
    exact List.forall_mem_nil _
  | c :: rest, indices, h => by
    rw [indices?] at h
    split at h
    · exact fun index hindex =>
        (hasDigits_of_firstDigit rest h index hindex).mono (List.suffix_cons c rest).isInfix
    · cases h

private theorem hasDigits_of_firstDigit : (cs : List CodePoint) → {indices : List Numeral} →
    firstDigit? cs = some indices → ∀ index ∈ indices, Text.HasDigits index.digits cs
  | [], _, h => by cases h
  | c :: rest, indices, h => by
    rw [firstDigit?] at h
    obtain ⟨digit, hdigit, h⟩ := Option.bind_eq_some_iff.mp h
    refine hasDigits_of_moreDigits [c] (Numeral.empty.push digit) rest rfl ?_ h
    exact List.forall_mem_singleton.mpr (Option.isSome_iff_exists.mpr ⟨digit, hdigit⟩)

/-- The same for an index of which some digits have been looked at. -/
private theorem hasDigits_of_moreDigits :
    (seen : List CodePoint) → (index : Numeral) → (cs : List CodePoint) →
    seen.length = index.digits → (∀ c ∈ seen, (Text.digitValue? c).isSome = true) →
    {indices : List Numeral} → moreDigits? index cs = some indices →
    ∀ other ∈ indices, Text.HasDigits other.digits (seen ++ cs)
  | _, _, [], _, _, _, h => by cases h
  | seen, index, c :: rest, hlength, hseen, indices, h => by
    rw [moreDigits?] at h
    split at h
    · obtain ⟨others, hothers, rfl⟩ := Option.map_eq_some_iff.mp h
      refine List.forall_mem_cons.mpr ⟨⟨seen, List.infix_append_left, hlength, hseen⟩, ?_⟩
      intro other hother
      refine (hasDigits_of_indices rest hothers other hother).mono ?_
      exact (List.suffix_cons c rest).isInfix.trans List.infix_append_right
    · obtain ⟨digit, hdigit, h⟩ := Option.bind_eq_some_iff.mp h
      have hall : ∀ d ∈ seen ++ [c], (Text.digitValue? d).isSome = true := by
        intro d hd
        rcases List.mem_append.mp hd with hd | hd
        · exact hseen d hd
        · rw [List.mem_singleton.mp hd, hdigit]
          rfl
      have hmore := hasDigits_of_moreDigits (seen ++ [c]) (index.push digit) rest
        (by rw [List.length_append, hlength]; rfl) hall h
      rwa [List.append_assoc] at hmore
end

private theorem hasDigits_of_segment {cs : List CodePoint} {segment : Segment}
    (h : segment? cs = some segment) :
    ∀ index ∈ segment.indices, Text.HasDigits index.digits cs := by
  unfold segment? at h
  split at h
  · cases h
  · intro index hindex
    refine Text.HasDigits.mono ?_ (Text.dropFinalNewline_prefix cs).isInfix
    generalize Text.dropFinalNewline cs = plain at h
    unfold plainSegment? at h
    split at h
    · obtain rfl := Option.some.inj h
      cases hindex
    · next c rest =>
      rw [List.span_eq_takeWhile_dropWhile] at h
      split at h
      · obtain ⟨indices, hindices, rfl⟩ := Option.map_eq_some_iff.mp h
        refine (hasDigits_of_indices _ hindices index hindex).mono ?_
        exact (List.dropWhile_suffix _).isInfix
      · obtain ⟨indices, hindices, rfl⟩ := Option.map_eq_some_iff.mp h
        exact hasDigits_of_indices _ hindices index hindex

private theorem readIndices_error {indices : List Numeral} {b : Breakdown}
    (h : readIndices indices = .error b) :
    ∃ index ∈ indices, digitLimit < index.digits ∧ b = .longNumeral index.digits := by
  induction indices with
  | nil => cases h
  | cons index rest ih =>
    rcases Outcome.bind_error_iff.mp h with h | ⟨position, -, h⟩
    · exact ⟨index, List.mem_cons_self, Numeral.read_error_iff.mp h⟩
    · rcases Outcome.bind_error_iff.mp h with h | ⟨others, -, h⟩
      · obtain ⟨other, hother, hlong⟩ := ih h
        exact ⟨other, List.mem_cons_of_mem _ hother, hlong⟩
      · cases h

/-- The reading of a path breaks down at a row of digits in it that is too long. -/
theorem read_error {path : Text} {b : Breakdown} (h : read path = .error b) :
    ∃ n, digitLimit < n ∧ b = .longNumeral n ∧ Text.HasDigits n path.toList := by
  suffices hall : ∀ segments, readSegments segments = .error b →
      ∃ cs ∈ segments, ∃ n, digitLimit < n ∧ b = .longNumeral n ∧ Text.HasDigits n cs by
    obtain ⟨cs, hcs, n, hn, hb, hdigits⟩ := hall _ h
    exact ⟨n, hn, hb, hdigits.mono ((Text.joined_splitOnP _ _).infix_of_mem hcs)⟩
  intro segments h
  induction segments with
  | nil => cases h
  | cons cs rest ih =>
    rw [readSegments] at h
    split at h
    · cases h
    · next segment hsegment =>
      rcases Outcome.bind_error_iff.mp h with h | ⟨steps, -, h⟩
      · rcases Outcome.bind_error_iff.mp h with h | ⟨indices, -, h⟩
        · obtain ⟨index, hindex, hlong, rfl⟩ := readIndices_error h
          exact ⟨cs, List.mem_cons_self, _, hlong, rfl,
            hasDigits_of_segment hsegment index hindex⟩
        · cases h
      · rcases Outcome.bind_error_iff.mp h with h | ⟨others, -, h⟩
        · obtain ⟨other, hother, hlong⟩ := ih h
          exact ⟨other, List.mem_cons_of_mem _ hother, hlong⟩
        · cases h

end AttrPath

namespace Template
variable {source : Text} {b : Breakdown}

/-- A breakdown comes from a row of digits in a text that is too long. -/
def TooLongIn (b : Breakdown) (cs : List CodePoint) : Prop :=
  ∃ n, digitLimit < n ∧ b = .longNumeral n ∧ Text.HasDigits n cs

private theorem TooLongIn.mono {cs ds : List CodePoint} (h : TooLongIn b cs) (hpart : cs <:+: ds) :
    TooLongIn b ds := by
  obtain ⟨n, hn, hb, hdigits⟩ := h
  exact ⟨n, hn, hb, hdigits.mono hpart⟩

private theorem tooLongIn_of_placeholder {body : List CodePoint}
    (h : placeholder source body = .error (.breakdown b)) : TooLongIn b body := by
  unfold placeholder at h
  cases hcut : Text.cutAt? '#' body with
  | none =>
    simp only [hcut] at h
    split at h <;> cases h
  | some parts =>
    obtain ⟨name, path⟩ := parts
    simp only [hcut] at h
    split at h
    · cases h
    · rcases Outcome.bind_error_iff.mp h with h | ⟨steps, -, h⟩
      · obtain ⟨_, hread, hb⟩ := Outcome.mapError_error_iff.mp h
        have hpath : TooLongIn b path := by
          obtain ⟨n, hn, hlong, hdigits⟩ := AttrPath.read_error hread
          rw [Text.toList_ofList] at hdigits
          exact ⟨n, hn, (Failure.breakdown.inj hb).symm.trans hlong, hdigits⟩
        obtain ⟨hbody, -⟩ := Text.cutAt?_eq_some_iff.mp hcut
        rw [hbody]
        exact hpath.mono ((List.suffix_cons _ path).trans (List.suffix_append name _)).isInfix
      · cases steps <;> cases h

/-- What is still to be read, and the body of a placeholder that has been read so far, hold the row
of digits at which the reading breaks down. -/
private theorem tooLongIn_of_rest :
    (∀ (offset : Nat) (collected cs : List CodePoint),
      outside source offset collected cs = .error (.breakdown b) → TooLongIn b cs) ∧
    ∀ (offset : Nat) (body cs : List CodePoint),
      inside source offset body cs = .error (.breakdown b) → TooLongIn b (body.reverse ++ cs) := by
  -- The cases are those of the two functions, in the order in which they are written.
  apply outside.mutual_induct
  case case1 =>
    intro offset collected h
    cases h
  case case2 =>
    intro offset collected rest ih h
    exact (ih h).mono (List.suffix_append [_, _] rest).isInfix
  case case3 =>
    intro offset collected rest hsingle ih h
    rw [outside.eq_3 _ _ _ _ hsingle, Outcome.map_error_iff] at h
    exact (ih h).mono (List.suffix_cons _ rest).isInfix
  case case4 =>
    intro offset collected rest ih h
    exact (ih h).mono (List.suffix_append [_, _] rest).isInfix
  case case5 =>
    intro offset collected rest hsingle h
    rw [outside.eq_5 _ _ _ _ hsingle] at h
    cases h
  case case6 =>
    intro offset collected c rest hdoubled hopen hdoubled' hclose ih h
    rw [outside.eq_6 _ _ _ _ _ hdoubled hopen hdoubled' hclose] at h
    exact (ih h).mono (List.suffix_cons c rest).isInfix
  case case7 =>
    intro offset body h
    cases h
  case case8 =>
    intro offset body rest hnested h
    rw [inside, if_pos rfl, if_pos hnested] at h
    cases h
  case case9 =>
    intro offset body rest hflat ih h
    rw [inside, if_pos rfl, if_neg hflat] at h
    rcases Outcome.bind_error_iff.mp h with h | ⟨part, -, h⟩
    · exact (tooLongIn_of_placeholder h).mono List.infix_append_left
    · rcases Outcome.bind_error_iff.mp h with h | ⟨later, -, h⟩
      · refine (ih h).mono ?_
        exact (List.suffix_cons _ rest).isInfix.trans List.infix_append_right
      · cases h
  case case10 =>
    intro offset body c rest hc ih h
    rw [inside, if_neg hc] at h
    have hmore := ih h
    rwa [List.reverse_cons, List.append_assoc] at hmore

/-- The reading of a template breaks down at a row of digits in its source that is too long. -/
theorem tooLongIn_of_parse (h : parse source = .error (.breakdown b)) :
    TooLongIn b source.toList :=
  tooLongIn_of_rest.1 0 [] source.toList (Outcome.map_error_iff.mp h)

end Template

namespace Json
variable {datum item : Json} {items : List Json} {key : Text} {fields : List (Text × Json)}
  {b : Breakdown}

/-- A datum has a part at which its reading or showing breaks down. -/
inductive Explains : Json → Breakdown → Prop
  | text {s : Text} {n : Nat} : digitLimit < n → Text.HasDigits n s.toList →
      Explains (.str s) (.longNumeral n)
  | number {n : Int} : isLong n = true → Explains (.int n) .longNumber
  | item {items : List Json} {item : Json} {b : Breakdown} : item ∈ items → Explains item b →
      Explains (.arr items) b
  | member {fields : List (Text × Json)} {key : Text} {item : Json} {b : Breakdown} :
      (key, item) ∈ fields → Explains item b → Explains (.obj fields) b

theorem explains_of_tooLongIn {s : Text} (h : Template.TooLongIn b s.toList) :
    (Json.str s).Explains b := by
  obtain ⟨n, hn, rfl, hdigits⟩ := h
  exact .text hn hdigits

theorem Explains.tail (datum : Json) (h : (Json.arr items).Explains b) :
    (Json.arr (datum :: items)).Explains b := by
  cases h with
  | item hmem h => exact .item (List.mem_cons_of_mem _ hmem) h

theorem Explains.further (field : Text × Json) (h : (Json.obj fields).Explains b) :
    (Json.obj (field :: fields)).Explains b := by
  cases h with
  | member hmem h => exact .member (List.mem_cons_of_mem _ hmem) h

theorem Explains.of_drop (h : (Json.obj (Fields.drop key fields)).Explains b) :
    (Json.obj fields).Explains b := by
  cases h with
  | member hmem h => exact .member (List.mem_of_mem_filter hmem) h

theorem Explains.of_get? (hget : Fields.get? key fields = some item) (h : item.Explains b) :
    (Json.obj fields).Explains b := .member (Fields.mem_of_get? hget) h

/-- A member that may be left out explains a breakdown only if it is there. -/
theorem Explains.of_getD {default : Json} (hdefault : ¬ default.Explains b)
    (h : ((Fields.get? key fields).getD default).Explains b) : (Json.obj fields).Explains b := by
  cases hget : Fields.get? key fields with
  | none =>
    rw [hget] at h
    exact absurd h hdefault
  | some item =>
    rw [hget] at h
    exact h.of_get? hget

theorem not_explains_null : ¬ Json.null.Explains b := nofun

theorem not_explains_noItems : ¬ (Json.arr []).Explains b := by
  rintro (_ | _ | ⟨⟨⟩, _⟩)

theorem not_explains_noMembers : ¬ (Json.obj []).Explains b := by
  rintro (_ | _ | _ | ⟨⟨⟩, _⟩)

mutual
/-- A datum that cannot be shown has a long number in it. -/
theorem explains_of_hasLongNumber : (datum : Json) → datum.hasLongNumber = true →
    datum.Explains .longNumber
  | .int _ => fun h => .number h
  | .arr items => fun h => explains_of_anyLongNumber items h
  | .obj fields => fun h => explains_of_anyMemberLongNumber fields h
  | .null | .bool _ | .float _ | .str _ => fun h => by cases h

private theorem explains_of_anyLongNumber : (items : List Json) → anyLongNumber items = true →
    (Json.arr items).Explains .longNumber
  | [] => fun h => by cases h
  | item :: rest => fun h => by
    rw [anyLongNumber, Bool.or_eq_true] at h
    rcases h with h | h
    · exact .item List.mem_cons_self (explains_of_hasLongNumber item h)
    · exact (explains_of_anyLongNumber rest h).tail item

private theorem explains_of_anyMemberLongNumber : (fields : List (Text × Json)) →
    anyMemberLongNumber fields = true → (Json.obj fields).Explains .longNumber
  | [] => fun h => by cases h
  | (_, item) :: rest => fun h => by
    rw [anyMemberLongNumber, Bool.or_eq_true] at h
    rcases h with h | h
    · exact .member List.mem_cons_self (explains_of_hasLongNumber item h)
    · exact (explains_of_anyMemberLongNumber rest h).further _
end

end Json
end EndpointRules
