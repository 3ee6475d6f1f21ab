import EndpointRules.Function.Registry
import Mathlib.Algebra.Order.Group.Int
import Mathlib.Data.List.TakeDrop

/-! Parts of texts. Which bounds give a part does not depend on the end that they are counted from,
a part counted from the end is one of the text read backwards, and two parts that meet at a bound
are one part. -/

namespace EndpointRules.Text
variable {cs piece front back : List CodePoint} {start middle stop : Int}

/-- The text is ASCII, and the bounds are ascending and inside of it. -/
def Bounds (cs : List CodePoint) (start stop : Int) : Prop :=
  (∀ c ∈ cs, c.toNat < 128) ∧ 0 ≤ start ∧ start < stop ∧ stop ≤ cs.length

private theorem bounds_iff : Bounds cs start stop ↔
    cs.all isAscii ∧ 0 ≤ start ∧ start < stop ∧ stop ≤ cs.length := by
  simp only [Bounds, List.all_eq_true, isAscii, decide_eq_true_eq]

private theorem bounds_reverse : Bounds cs.reverse start stop ↔ Bounds cs start stop := by
  simp only [Bounds, List.mem_reverse, List.length_reverse]

private theorem slice?_of_bounds (h : Bounds cs start stop) : slice? cs start stop false =
    some ((cs.drop start.toNat).take (stop.toNat - start.toNat)) := by
  rw [slice?, if_pos (bounds_iff.mp h)]
  rfl

private theorem slice?_of_not_bounds (h : ¬ Bounds cs start stop) (fromEnd : Bool) :
    slice? cs start stop fromEnd = none :=
  if_neg fun hbounds => h (bounds_iff.mpr hbounds)

private theorem slice?_eq_some_iff : slice? cs start stop false = some piece ↔
    Bounds cs start stop ∧ (cs.drop start.toNat).take (stop.toNat - start.toNat) = piece := by
  by_cases h : Bounds cs start stop
  · rw [slice?_of_bounds h, Option.some.injEq, and_iff_right h]
  · rw [slice?_of_not_bounds h]
    constructor
    · rintro ⟨⟩
    · rintro ⟨hbounds, -⟩
      exact absurd hbounds h

/-- Counting from the end is counting in the text read backwards. -/
private theorem slice?_fromEnd (cs : List CodePoint) (start stop : Int) :
    slice? cs start stop true = (slice? cs.reverse start stop false).map List.reverse := by
  by_cases h : Bounds cs start stop
  · have ⟨_, hstart, hlt, hstop⟩ := h
    have hlast : cs.length - start.toNat - (stop.toNat - start.toNat) =
        cs.length - stop.toNat := by omega
    have hcount : cs.length - start.toNat - (cs.length - stop.toNat) =
        stop.toNat - start.toNat := by omega
    have hback : ((cs.reverse.drop start.toNat).take (stop.toNat - start.toNat)).reverse =
        (cs.drop (cs.length - stop.toNat)).take (stop.toNat - start.toNat) := by
      rw [List.drop_reverse, List.take_reverse, List.reverse_reverse, List.length_take,
        min_eq_left (Nat.sub_le _ _), hlast, List.drop_take, hcount]
    rw [slice?_of_bounds (bounds_reverse.mpr h), Option.map_some, hback, slice?,
      if_pos (bounds_iff.mp h)]
    rfl
  · rw [slice?_of_not_bounds h, slice?_of_not_bounds (mt bounds_reverse.mp h)]
    rfl

/-- Within the bounds there is a part of the length between them, from either end. -/
private theorem exists_slice? (h : Bounds cs start stop) (fromEnd : Bool) :
    ∃ piece, slice? cs start stop fromEnd = some piece ∧ (piece.length : Int) = stop - start := by
  have hforward {cs : List CodePoint} (h : Bounds cs start stop) :
      ∃ piece, slice? cs start stop false = some piece ∧ (piece.length : Int) = stop - start := by
    obtain ⟨-, hstart, hlt, hstop⟩ := id h
    refine ⟨_, slice?_of_bounds h, ?_⟩
    rw [List.length_take, List.length_drop]
    omega
  cases fromEnd with
  | false => exact hforward h
  | true =>
    obtain ⟨piece, hpiece, hlength⟩ := hforward (bounds_reverse.mpr h)
    refine ⟨piece.reverse, ?_, by rw [List.length_reverse, hlength]⟩
    rw [slice?_fromEnd, hpiece]
    rfl

/-- A part has the characters of the text from its first bound on. -/
private theorem getElem?_slice? (h : slice? cs start stop false = some piece) {i : ℕ}
    (hi : i < piece.length) : piece[i]? = cs[start.toNat + i]? := by
  obtain ⟨-, rfl⟩ := slice?_eq_some_iff.mp h
  rw [List.getElem?_take_of_lt (lt_of_lt_of_le hi (List.length_take_le _ _)), List.getElem?_drop]

private theorem slice?_append (hfront : slice? cs start middle false = some front)
    (hback : slice? cs middle stop false = some back) :
    slice? cs start stop false = some (front ++ back) := by
  obtain ⟨⟨hascii, hstart, hlt, -⟩, rfl⟩ := slice?_eq_some_iff.mp hfront
  obtain ⟨⟨-, -, hlt', hstop⟩, rfl⟩ := slice?_eq_some_iff.mp hback
  refine slice?_eq_some_iff.mpr ⟨⟨hascii, hstart, hlt.trans hlt', hstop⟩, ?_⟩
  have hcount : stop.toNat - start.toNat =
      (middle.toNat - start.toNat) + (stop.toNat - middle.toNat) := by omega
  have hmiddle : start.toNat + (middle.toNat - start.toNat) = middle.toNat := by omega
  rw [hcount, List.take_add, List.drop_drop, hmiddle]

/-- Counted from the end, the later part stands in front. -/
private theorem slice?_append_fromEnd (hback : slice? cs middle stop true = some back)
    (hfront : slice? cs start middle true = some front) :
    slice? cs start stop true = some (back ++ front) := by
  rw [slice?_fromEnd, Option.map_eq_some_iff] at hback hfront ⊢
  obtain ⟨back, hback, rfl⟩ := hback
  obtain ⟨front, hfront, rfl⟩ := hfront
  exact ⟨_, slice?_append hfront hback, List.reverse_append⟩

/-- What the function for parts of texts answers for a text, two bounds and the end that they are
counted from. -/
def substring (s : Text) (start stop : Int) (fromEnd : Bool) :
    Except EvalError (Option Value) :=
  Registry.standard.call (.text "substring")
    [some (.string s), some (.int start), some (.int stop), some (.bool fromEnd)]

/-- A text read backwards. -/
def backwards (s : Text) : Text := Text.ofList s.toList.reverse

private theorem backwards_ofList (cs : List CodePoint) :
    backwards (Text.ofList cs) = Text.ofList cs.reverse := by
  rw [backwards, Text.toList_ofList]

private theorem substring_eq (s : Text) (start stop : Int) (fromEnd : Bool) :
    substring s start stop fromEnd =
      .ok ((slice? s.toList start stop fromEnd).map fun cs => .string (Text.ofList cs)) := rfl

private theorem substring_eq_string_iff {s part : Text} {fromEnd : Bool} :
    substring s start stop fromEnd = .ok (some (.string part)) ↔
      slice? s.toList start stop fromEnd = some part.toList := by
  rw [substring_eq]
  cases slice? s.toList start stop fromEnd with
  | none => constructor <;> rintro ⟨⟩
  | some cs =>
    simp only [Option.map_some, Except.ok.injEq, Option.some.injEq, Value.string.injEq]
    constructor
    · rintro rfl
      rw [Text.toList_ofList]
    · rintro rfl
      rw [Text.ofList_toList]

/-- For all bounds and from either end there is a part exactly when the text is ASCII and the bounds
are ascending and inside of it; it is as long as the bounds are apart, and its characters are those
of the text from the first bound on. Counting from the end is counting in the text read backwards
and reading the part backwards. Parts that meet at a bound are one part; counted from the end the
later one stands in front. -/
theorem substring_laws (s : Text) (a b c : Int) (fromEnd : Bool) :
    (Bounds s.toList a b → ∃ part : Text,
      substring s a b fromEnd = .ok (some (.string part)) ∧ (part.length : Int) = b - a) ∧
    (¬ Bounds s.toList a b → substring s a b fromEnd = .ok none) ∧
    (∀ part, substring s a b false = .ok (some (.string part)) →
      ∀ i < part.length, part.toList[i]? = s.toList[a.toNat + i]?) ∧
    (∃ part : Option Text, substring (backwards s) a b false = .ok (part.map .string) ∧
      substring s a b true = .ok ((part.map backwards).map .string)) ∧
    (∀ front back, substring s a b false = .ok (some (.string front)) →
      substring s b c false = .ok (some (.string back)) →
      substring s a c false = .ok (some (.string (front ++ back)))) ∧
    ∀ front back, substring s b c true = .ok (some (.string back)) →
      substring s a b true = .ok (some (.string front)) →
      substring s a c true = .ok (some (.string (back ++ front))) := by
  refine ⟨?_, ?_, ?_, ?_, ?_, ?_⟩
  · intro h
    obtain ⟨piece, hpiece, hlength⟩ := exists_slice? h fromEnd
    refine ⟨Text.ofList piece, ?_, hlength⟩
    rw [substring_eq, hpiece]
    rfl
  · intro h
    rw [substring_eq, slice?_of_not_bounds h]
    rfl
  · intro part hpart i hi
    exact getElem?_slice? (substring_eq_string_iff.mp hpart) hi
  · refine ⟨(slice? s.toList.reverse a b false).map Text.ofList, ?_, ?_⟩
    · rw [substring_eq, backwards, Text.toList_ofList, Option.map_map]
      rfl
    · rw [substring_eq, slice?_fromEnd]
      cases slice? s.toList.reverse a b false with
      | none => rfl
      | some piece => simp only [Option.map_some, backwards_ofList]
  · intro front back hfront hback
    rw [substring_eq_string_iff] at hfront hback ⊢
    rw [Text.toList_append]
    exact slice?_append hfront hback
  · intro front back hback hfront
    rw [substring_eq_string_iff] at hfront hback ⊢
    rw [Text.toList_append]
    exact slice?_append_fromEnd hback hfront

theorem substring_laws_sample :
    (Bounds (Text.toList "abcd") 1 2 ∧ ∃ part : Text,
      substring "abcd" 1 2 true = .ok (some (.string part)) ∧ (part.length : Int) = 2 - 1) ∧
    (¬ Bounds (Text.toList "abcd") 2 1 ∧ substring "abcd" 2 1 false = .ok none) ∧
    (substring "abcd" 1 2 false = .ok (some (.string "b")) ∧
      substring "abcd" 2 4 false = .ok (some (.string "cd")) ∧
      substring "abcd" 1 4 false = .ok (some (.string ("b" ++ "cd"))) ∧
      ∀ i < Text.length "b", (Text.toList "b")[i]? = (Text.toList "abcd")[Int.toNat 1 + i]?) ∧
    substring "abcd" 2 4 true = .ok (some (.string "ab")) ∧
    substring "abcd" 1 2 true = .ok (some (.string "c")) ∧
    substring "abcd" 1 4 true = .ok (some (.string ("ab" ++ "c"))) := by
  have hbounds : Bounds (Text.toList "abcd") 1 2 := by unfold Bounds; decide
  have hdescending : ¬ Bounds (Text.toList "abcd") 2 1 := by unfold Bounds; decide
  have hfront : substring "abcd" 1 2 false = .ok (some (.string "b")) := by decide +kernel
  have hback : substring "abcd" 2 4 false = .ok (some (.string "cd")) := by decide +kernel
  have hlater : substring "abcd" 2 4 true = .ok (some (.string "ab")) := by decide +kernel
  have hearlier : substring "abcd" 1 2 true = .ok (some (.string "c")) := by decide +kernel
  obtain ⟨hpart, -, hchars, -, happend, hfromEnd⟩ := substring_laws "abcd" 1 2 4 true
  exact ⟨⟨hbounds, hpart hbounds⟩,
    ⟨hdescending, (substring_laws "abcd" 2 1 0 false).2.1 hdescending⟩,
    ⟨hfront, hback, happend _ _ hfront hback, hchars _ hfront⟩, hlater, hearlier,
    hfromEnd _ _ hlater hearlier⟩

end EndpointRules.Text
