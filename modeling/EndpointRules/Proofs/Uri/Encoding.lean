import EndpointRules.Function.Registry
import EndpointRules.Proofs.Outcome
import Mathlib.Data.String.Basic

/-! Percent encoding and its inverse. An encoded text is written in unreserved characters and
escapes, and the bytes for which these stand are those of the text that was encoded. -/

namespace EndpointRules.Uri
variable {c : CodePoint} {cs rest : List CodePoint}

/-- The characters that stand for themselves. -/
def Unreserved (c : CodePoint) : Prop :=
  ('A' ≤ c ∧ c ≤ 'Z') ∨ ('a' ≤ c ∧ c ≤ 'z') ∨ ('0' ≤ c ∧ c ≤ '9') ∨
    c = '-' ∨ c = '_' ∨ c = '.' ∨ c = '~'

/-- A hexadecimal digit of upper case. -/
def EscapeDigit (c : CodePoint) : Prop := ('0' ≤ c ∧ c ≤ '9') ∨ ('A' ≤ c ∧ c ≤ 'F')

instance : DecidablePred EscapeDigit := fun _ => inferInstanceAs (Decidable (_ ∨ _))

/-- A text of unreserved characters and of escapes, which are a percent sign and two digits. -/
inductive Escaped : List CodePoint → Prop
  | nil : Escaped []
  | plain {c : CodePoint} {rest : List CodePoint} :
      Unreserved c → Escaped rest → Escaped (c :: rest)
  | escape {high low : CodePoint} {rest : List CodePoint} : EscapeDigit high → EscapeDigit low →
      Escaped rest → Escaped (.char '%' :: high :: low :: rest)

/-- The value of a hexadecimal digit of upper case. -/
def escapeValue (c : CodePoint) : ℕ := if c ≤ '9' then c.toNat - 48 else c.toNat - 55

/-- The bytes for which an escaped text stands: of an escape the one that its digits give, and of
any other character its ASCII code. -/
def unescape : List CodePoint → List UInt8
  | .char '%' :: high :: low :: rest =>
    UInt8.ofNat (16 * escapeValue high + escapeValue low) :: unescape rest
  | c :: rest => UInt8.ofNat c.toNat :: unescape rest
  | [] => []

/-- The string whose UTF-8 bytes an escaped text stands for, if there is one. -/
def decode? (s : Text) : Option String := String.fromUTF8? (unescape s.toList).toByteArray

private theorem isUnreserved_iff : isUnreserved c = true ↔ Unreserved c := by
  simp only [isUnreserved, Bool.or_eq_true, beq_iff_eq, Text.isAlphanumeric_iff, Unreserved,
    or_assoc]

private theorem Unreserved.toNat_lt (h : Unreserved c) : c.toNat < 128 := by
  have hle {last : CodePoint} (h : c ≤ last) : c.toNat ≤ last.toNat := h
  rcases h with ⟨-, h⟩ | ⟨-, h⟩ | ⟨-, h⟩ | rfl | rfl | rfl | rfl
  · exact (hle h).trans_lt (by decide)
  · exact (hle h).trans_lt (by decide)
  · exact (hle h).trans_lt (by decide)
  all_goals decide

private theorem not_unreserved_percent : ¬ Unreserved '%' := by
  rw [← isUnreserved_iff]
  decide

/-- Each digit that is written is of upper case and has the value that it was written for. -/
private theorem upperHexDigit_spec : ∀ n < 16,
    EscapeDigit (upperHexDigit n) ∧ escapeValue (upperHexDigit n) = n := by
  decide

private theorem encodeChar_of_unreserved {c : Char} (h : Unreserved c) : encodeChar c = [.char c] :=
  if_pos (isUnreserved_iff.mpr h)

private theorem encodeChar_of_not_unreserved {c : Char} (h : ¬ Unreserved c) :
    encodeChar c = (String.utf8EncodeChar c).flatMap encodeByte :=
  if_neg fun hc => h (isUnreserved_iff.mp hc)

/-! What is written. -/

private theorem Escaped.append {front back : List CodePoint} (hf : Escaped front)
    (hb : Escaped back) :
    Escaped (front ++ back) := by
  induction hf with
  | nil => exact hb
  | plain hc _ ih => exact .plain hc ih
  | escape hhigh hlow _ ih => exact .escape hhigh hlow ih

private theorem escaped_flatMap {α : Type} {f : α → List CodePoint} (hf : ∀ a, Escaped (f a))
    (l : List α) :
    Escaped (l.flatMap f) := by
  induction l with
  | nil => exact .nil
  | cons a rest ih =>
    rw [List.flatMap_cons]
    exact (hf a).append ih

private theorem nibbles_lt (byte : UInt8) : byte.toNat / 16 < 16 ∧ byte.toNat % 16 < 16 := by
  have hbyte := byte.toNat_lt
  omega

private theorem escaped_encodeByte (byte : UInt8) : Escaped (encodeByte byte) := by
  obtain ⟨hhigh, hlow⟩ := nibbles_lt byte
  exact .escape (upperHexDigit_spec _ hhigh).1 (upperHexDigit_spec _ hlow).1 .nil

private theorem escaped_encodeChar (c : Char) : Escaped (encodeChar c) := by
  by_cases hc : Unreserved c
  · rw [encodeChar_of_unreserved hc]
    exact .plain hc .nil
  · rw [encodeChar_of_not_unreserved hc]
    exact escaped_flatMap escaped_encodeByte _

/-! What is read back. -/

private theorem unescape_cons (h : c ≠ '%') (rest : List CodePoint) :
    unescape (c :: rest) = UInt8.ofNat c.toNat :: unescape rest := by
  rw [unescape]
  rintro _ _ _ rfl
  exact absurd rfl h

private theorem unescape_flatMap {α : Type} {f : α → List CodePoint} {g : α → List UInt8}
    (hf : ∀ a rest, unescape (f a ++ rest) = g a ++ unescape rest) (l : List α)
    (rest : List CodePoint) : unescape (l.flatMap f ++ rest) = l.flatMap g ++ unescape rest := by
  induction l with
  | nil => rfl
  | cons a more ih =>
    rw [List.flatMap_cons, List.flatMap_cons, List.append_assoc, List.append_assoc, hf, ih]

private theorem unescape_encodeByte (byte : UInt8) (rest : List CodePoint) :
    unescape (encodeByte byte ++ rest) = [byte] ++ unescape rest := by
  obtain ⟨hhigh, hlow⟩ := nibbles_lt byte
  have hbyte : 16 * (byte.toNat / 16) + byte.toNat % 16 = byte.toNat := by omega
  calc
    _ = UInt8.ofNat (16 * escapeValue (upperHexDigit (byte.toNat / 16)) +
        escapeValue (upperHexDigit (byte.toNat % 16))) :: unescape rest := rfl
    _ = _ := by
      rw [(upperHexDigit_spec _ hhigh).2, (upperHexDigit_spec _ hlow).2, hbyte,
        UInt8.ofNat_toNat]
      rfl

private theorem unescape_encodeChar (c : Char) (rest : List CodePoint) :
    unescape (encodeChar c ++ rest) = String.utf8EncodeChar c ++ unescape rest := by
  by_cases hc : Unreserved c
  · have hne : CodePoint.char c ≠ '%' := fun h => not_unreserved_percent (h ▸ hc)
    have hbytes : String.utf8EncodeChar c = [UInt8.ofNat c.toNat] :=
      if_pos (Nat.le_of_lt_succ hc.toNat_lt)
    rw [encodeChar_of_unreserved hc, hbytes]
    exact unescape_cons hne rest
  · rw [encodeChar_of_not_unreserved hc, unescape_flatMap unescape_encodeByte,
      List.flatMap_singleton']

private theorem decode?_encodeString (s : String) : decode? (encodeString s) = some s := by
  have hbytes : unescape (encodeString s).toList = s.toList.flatMap String.utf8EncodeChar := by
    rw [encodeString, Text.toList_ofList, ← List.append_nil (s.toList.flatMap encodeChar),
      unescape_flatMap unescape_encodeChar]
    exact List.append_nil _
  have htext : (s.toList.flatMap String.utf8EncodeChar).toByteArray = s.toByteArray :=
    congrArg String.toByteArray String.ofList_toList
  rw [decode?, hbytes, htext, String.fromUTF8?, dif_pos s.isValidUTF8]
  rfl

/-! What stays as it is. -/

private theorem one_lt_length_encodeChar {c : Char} (h : ¬ Unreserved c) :
    1 < (encodeChar c).length := by
  have hne : String.utf8EncodeChar c ≠ [] := by
    apply List.ne_nil_of_length_pos
    rw [String.length_utf8EncodeChar]
    exact c.utf8Size_pos
  obtain ⟨byte, more, hbytes⟩ := List.exists_cons_of_ne_nil hne
  rw [encodeChar_of_not_unreserved h, hbytes, List.flatMap_cons, List.length_append]
  exact Nat.lt_add_right _ (by decide : 1 < 3)

private theorem length_le_length_encode (cs : List Char) :
    cs.length ≤ (cs.flatMap encodeChar).length := by
  induction cs with
  | nil => exact le_rfl
  | cons c rest ih =>
    have hc : 1 ≤ (encodeChar c).length := by
      by_cases hc : Unreserved c
      · rw [encodeChar_of_unreserved hc, List.length_singleton]
      · exact (one_lt_length_encodeChar hc).le
    rw [List.flatMap_cons, List.length_append, List.length_cons]
    omega

/-- A reserved character makes a text longer, and no other character makes up for it. -/
private theorem encodeString_eq_self_iff {s : String} :
    encodeString s = s ↔ ∀ c ∈ s.toList, Unreserved c := by
  have hchars : encodeString s = s ↔ s.toList.flatMap encodeChar = s.toList.map .char := by
    rw [encodeString, ← Text.toList_inj, Text.toList_ofList, Text.toList_ofString]
  rw [hchars]
  generalize s.toList = cs
  induction cs with
  | nil => simp
  | cons c rest ih =>
    rw [List.forall_mem_cons, List.flatMap_cons, List.map_cons]
    constructor
    · intro h
      by_cases hc : Unreserved c
      · rw [encodeChar_of_unreserved hc, List.singleton_append, List.cons.injEq] at h
        exact ⟨hc, ih.mp h.2⟩
      · have hlength := congrArg List.length h
        have hlonger := one_lt_length_encodeChar hc
        have hrest := length_le_length_encode rest
        rw [List.length_append, List.length_cons, List.length_map] at hlength
        omega
    · rintro ⟨hc, hrest⟩
      rw [encodeChar_of_unreserved hc, ih.mpr hrest, List.singleton_append]

private theorem encodeString_append (s t : String) :
    encodeString (s ++ t) = encodeString s ++ encodeString t := by
  rw [encodeString, String.toList_append, List.flatMap_append, Text.ofList_append]
  rfl

private theorem encodeString_injective : Function.Injective encodeString := by
  intro s t h
  have hdecoded : decode? (encodeString s) = decode? (encodeString t) := congrArg decode? h
  rw [decode?_encodeString, decode?_encodeString] at hdecoded
  exact Option.some.inj hdecoded

/-! Which texts are encoded. -/

private theorem chars_map (place : ℕ) (cs : List Char) :
    Text.chars place (cs.map .char) = .ok cs := by
  induction cs generalizing place with
  | nil => rfl
  | cons c rest ih =>
    rw [List.map_cons, Text.chars, ih]
    rfl

private theorem eq_map_of_chars {cs : List CodePoint} {chars : List Char} {place : ℕ}
    (h : Text.chars place cs = .ok chars) : cs = chars.map .char := by
  induction cs generalizing place chars with
  | nil =>
    cases h
    rfl
  | cons c rest ih =>
    cases c with
    | surrogate s => cases h
    | char c =>
      rw [Text.chars] at h
      obtain ⟨found, hfound, hchars⟩ := Outcome.bind_ok_iff.mp h
      cases hchars
      rw [ih hfound, List.map_cons]

/-- A text that is a string is this string only. -/
private theorem string_eq_ok_iff {text : Text} {s : String} : text.string = .ok s ↔ text = s := by
  rw [Text.string]
  constructor
  · intro h
    obtain ⟨chars, hchars, hs⟩ := Outcome.bind_ok_iff.mp h
    cases hs
    rw [← Text.toList_inj, eq_map_of_chars hchars, Text.toList_ofString, String.toList_ofList]
  · rintro rfl
    rw [Text.toList_ofString, chars_map]
    exact congrArg Except.ok String.ofList_toList

/-- The texts that are encoded are the strings. -/
private theorem encode_eq_ok_iff {text encoded : Text} :
    encode text = .ok encoded ↔ ∃ s : String, text = s ∧ encodeString s = encoded := by
  rw [encode]
  simp only [← string_eq_ok_iff]
  cases text.string with
  | error b => simp [bind, Except.bind]
  | ok s => simp [bind, Except.bind, pure, Except.pure]

private theorem chars_eq_error {cs : List CodePoint} {place : ℕ} {b : Breakdown}
    (h : Text.chars place cs = .error b) :
    ∃ (front : List Char) (s : Surrogate) (back : List CodePoint),
      cs = front.map .char ++ .surrogate s :: back ∧
      b = .unencodable s (place + front.length)
        (place + front.length + (back.takeWhile CodePoint.isSurrogate).length) := by
  induction cs generalizing place with
  | nil => cases h
  | cons c rest ih =>
    cases c with
    | surrogate s =>
      cases h
      exact ⟨[], s, rest, rfl, rfl⟩
    | char c =>
      rw [Text.chars] at h
      rcases Outcome.bind_error_iff.mp h with h | ⟨found, -, h⟩
      · obtain ⟨front, s, back, hrest, hb⟩ := ih h
        have hplace : place + 1 + front.length = place + (c :: front).length := by
          rw [List.length_cons]
          omega
        exact ⟨c :: front, s, back, congrArg (CodePoint.char c :: ·) hrest, hplace ▸ hb⟩
      · cases h

/-- A text that is not encoded has a first surrogate, which is named with those behind it. -/
theorem unencodable_of_encode {text : Text} {b : Breakdown} (h : encode text = .error b) :
    ∃ (front : List Char) (s : Surrogate) (back : List CodePoint),
      text.toList = front.map .char ++ .surrogate s :: back ∧
      b = .unencodable s front.length
        (front.length + (back.takeWhile CodePoint.isSurrogate).length) := by
  rcases Outcome.bind_error_iff.mp h with h | ⟨s, -, h⟩
  · rcases Outcome.bind_error_iff.mp h with h | ⟨chars, -, h⟩
    · simpa using chars_eq_error h
    · cases h
  · cases h

/-- A string is percent encoded in unreserved characters and escapes only, from which the string is
read back. So encoding tells all strings apart. It goes character by character, and what it leaves
alone are the strings of unreserved characters. -/
theorem uriEncode_lossless (s : String) :
    Registry.standard.call (.text "uriEncode") [some (.string s)] =
      .ok (some (.string (encodeString s))) ∧
    Escaped (encodeString s).toList ∧
    decode? (encodeString s) = some s ∧
    (∀ t, encodeString s = encodeString t ↔ s = t) ∧
    (∀ t, encodeString (s ++ t) = encodeString s ++ encodeString t) ∧
    (encodeString s = s ↔ ∀ c ∈ s.toList, Unreserved c) := by
  have hencode : encode s = .ok (encodeString s) := encode_eq_ok_iff.mpr ⟨s, rfl, rfl⟩
  refine ⟨?_, ?_, decode?_encodeString s, fun t => encodeString_injective.eq_iff,
    encodeString_append s, encodeString_eq_self_iff⟩
  · change (do return some (.string (← (encode s).mapError .breakdown)) :
      Except EvalError (Option Value)) = _
    rw [hencode]
    rfl
  · rw [encodeString, Text.toList_ofList]
    exact escaped_flatMap escaped_encodeChar s.toList

/-- One, two, three and four bytes. -/
example : encodeString "%é€😀" = "%25%C3%A9%E2%82%AC%F0%9F%98%80" := by decide +kernel

end EndpointRules.Uri
