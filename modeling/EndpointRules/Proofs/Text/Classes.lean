import EndpointRules.Text.Classes
import Mathlib.Algebra.Group.Nat.Defs
import Mathlib.Data.List.TakeWhile
import Mathlib.Data.Nat.Notation

/-! Blanks and digits in texts. What is stripped from a text is nothing but the blanks at its ends,
and a number is the value of the digits with which it is written. -/

namespace EndpointRules.Text

/-- What is stripped from a text are blanks around it. -/
theorem strip_within (cs : List CodePoint) :
    ∃ front back, cs = front ++ strip cs ++ back ∧ ∀ c ∈ front ++ back, isBlank c = true := by
  refine ⟨cs.takeWhile isBlank, ((cs.dropWhile isBlank).reverse.takeWhile isBlank).reverse,
    ?_, ?_⟩
  · have hback := congrArg List.reverse
      (List.takeWhile_append_dropWhile (p := isBlank) (l := (cs.dropWhile isBlank).reverse))
    rw [List.reverse_append, List.reverse_reverse] at hback
    rw [List.append_assoc, strip, hback, List.takeWhile_append_dropWhile]
  · intro c hc
    rcases List.mem_append.mp hc with hfront | hback
    · exact List.mem_takeWhile_imp hfront
    · exact List.mem_takeWhile_imp (List.mem_reverse.mp hback)

private theorem dropWhile_of_plain {word : List CodePoint} (h : ∀ c ∈ word, isBlank c = false) :
    word.dropWhile isBlank = word := by
  cases word with
  | nil => rfl
  | cons c rest => exact List.dropWhile_cons_of_neg (by simp [h c List.mem_cons_self])

/-- Blanks around a text without any are stripped. -/
theorem strip_of_within {front word back : List CodePoint}
    (hblank : ∀ c ∈ front ++ back, isBlank c = true) (hword : ∀ c ∈ word, isBlank c = false) :
    strip (front ++ word ++ back) = word := by
  obtain ⟨hfront, hback⟩ := List.forall_mem_append.mp hblank
  have hreverse : (word.reverse).dropWhile isBlank = word.reverse :=
    dropWhile_of_plain fun c hc => hword c (List.mem_reverse.mp hc)
  rw [strip, List.append_assoc, List.dropWhile_append_of_pos hfront]
  cases word with
  | nil =>
    rw [List.nil_append, List.dropWhile_eq_nil_iff.mpr hback]
    rfl
  | cons c rest =>
    have hc : ¬ isBlank c = true := by simp [hword c List.mem_cons_self]
    rw [List.cons_append, List.dropWhile_cons_of_neg hc, ← List.cons_append, List.reverse_append,
      List.dropWhile_append_of_pos fun d hd => hback d (List.mem_reverse.mp hd), hreverse,
      List.reverse_reverse]

private theorem toLower_of_isBlank {c : CodePoint} (h : isBlank c = true) : c.toLower = c := by
  have hblanks : ∀ n ∈ blanks, (CodePoint.ofNat n).toLower = CodePoint.ofNat n := by decide
  have hc := hblanks c.toNat (List.contains_iff_mem.mp h)
  rwa [CodePoint.ofNat_toNat] at hc

/-- No blank becomes a letter, so a text has none if it has none in lower case. -/
theorem plain_of_lowerAscii {word letters : List CodePoint} (h : lowerAscii word = letters)
    (hletters : ∀ c ∈ letters, isBlank c = false) : ∀ c ∈ word, isBlank c = false := by
  intro c hc
  by_contra hblank
  rw [Bool.not_eq_false] at hblank
  have hmem : c.toLower ∈ letters := h ▸ List.mem_map_of_mem hc
  rw [toLower_of_isBlank hblank] at hmem
  exact Bool.false_ne_true ((hletters c hmem).symm.trans hblank)

/-! Numbers as they are written, and indices in brackets. -/

section
variable {n : ℕ} {c : CodePoint}

/-- The decimal digits of a number, the leading one first. -/
def digits (n : ℕ) : List CodePoint := (Nat.toDigits 10 n).map .char

private theorem toList_toString (n : ℕ) : (ofString (toString n)).toList = digits n := by
  rw [toList_ofString, Nat.toString_eq_ofList_toDigits, String.toList_ofList, digits]

theorem toList_indexed (label : Text) (index : ℕ) :
    (indexed label index).toList = label.toList ++ .char '[' :: (digits index ++ [.char ']']) := by
  simp only [indexed, toList_append, toList_toString, List.append_assoc]
  rfl

theorem isDigit_of_mem_digits (h : c ∈ digits n) : c.isDigit = true := by
  obtain ⟨d, hd, rfl⟩ := List.mem_map.mp h
  have hdigit : d.isDigit = true := Nat.isDigit_of_mem_toDigits (by decide) (by decide) hd
  obtain ⟨hlow, hhigh⟩ := Bool.and_eq_true_iff.mp hdigit
  exact CodePoint.isDigit_iff.mpr ⟨UInt32.le_iff_toNat_le.mp (of_decide_eq_true hlow),
    UInt32.le_iff_toNat_le.mp (of_decide_eq_true hhigh)⟩

theorem digits_ne_nil (n : ℕ) : digits n ≠ [] :=
  mt List.map_eq_nil_iff.mp Nat.toDigits_ne_nil

/-- A number is the value of its digits. -/
theorem decimalValue_digits (n : ℕ) : decimalValue (digits n) = n := by
  rw [decimalValue, digits, List.foldl_map]
  exact Nat.ofDigitChars_ten_toDigits

theorem length_digits_le_iff {k : ℕ} (hk : 0 < k) : (digits n).length ≤ k ↔ n < 10 ^ k := by
  rw [digits, List.length_map]
  exact Nat.length_toDigits_le_iff (by decide) hk

end

end EndpointRules.Text
