/-! Texts as sequences of code points. A code point is a character or a surrogate, which is no
character but may stand in a text by itself. -/

namespace EndpointRules

/-- A surrogate, by its distance from U+D800. -/
abbrev Surrogate := Fin 2048

/-- A code point. -/
inductive CodePoint where
  | char (c : Char)
  | surrogate (s : Surrogate)
  deriving DecidableEq, Repr

namespace CodePoint

instance : Coe Char CodePoint := ⟨char⟩

def toNat : CodePoint → Nat
  | .char c => c.toNat
  | .surrogate s => 0xd800 + s

@[simp] theorem toNat_char (c : Char) : (char c).toNat = c.toNat := rfl

/-- The code point of a number; a number above the last code point is taken for zero. -/
def ofNat (n : Nat) : CodePoint :=
  if h : 0xd800 ≤ n ∧ n < 0xe000 then .surrogate ⟨n - 0xd800, by omega⟩ else .char (.ofNat n)

def isSurrogate : CodePoint → Bool
  | .char _ => false
  | .surrogate _ => true

instance : LE CodePoint := ⟨fun c d => c.toNat ≤ d.toNat⟩

instance (c d : CodePoint) : Decidable (c ≤ d) := inferInstanceAs (Decidable (c.toNat ≤ d.toNat))

/-- A code point is given by its number. -/
theorem ofNat_toNat (c : CodePoint) : ofNat c.toNat = c := by
  cases c with
  | char c =>
    have hvalid : c.toNat < 0xd800 ∨ 0xdfff < c.toNat ∧ c.toNat < 0x110000 := c.valid
    rw [toNat, ofNat, dif_neg (by omega), Char.ofNat_toNat]
  | surrogate s =>
    have hs : 0xd800 ≤ 0xd800 + s.val ∧ 0xd800 + s.val < 0xe000 := by omega
    rw [toNat, ofNat, dif_pos hs]
    exact congrArg surrogate (Fin.ext (Nat.add_sub_cancel_left _ _))

theorem toNat_inj {c d : CodePoint} : c.toNat = d.toNat ↔ c = d :=
  ⟨fun h => by rw [← ofNat_toNat c, h, ofNat_toNat], fun h => congrArg toNat h⟩

end CodePoint

/-- A text. Any code points may follow one another. -/
structure Text where
  ofList ::
  toList : List CodePoint
  deriving DecidableEq, Repr, Inhabited

namespace Text

def ofChars (cs : List Char) : Text := .ofList (cs.map .char)

def ofString (s : String) : Text := ofChars s.toList

instance : Coe String Text := ⟨ofString⟩

instance : Append Text := ⟨fun s t => .ofList (s.toList ++ t.toList)⟩

@[simp] theorem toList_ofList (cs : List CodePoint) : (ofList cs).toList = cs := rfl

@[simp] theorem ofList_toList (s : Text) : ofList s.toList = s := rfl

@[simp] theorem toList_ofString (s : String) : (ofString s).toList = s.toList.map .char := rfl

@[simp] theorem toList_append (s t : Text) : (s ++ t).toList = s.toList ++ t.toList := rfl

@[simp] theorem toList_inj {s t : Text} : s.toList = t.toList ↔ s = t :=
  ⟨fun h => congrArg ofList h, fun h => congrArg toList h⟩

@[simp] theorem toList_eq_nil_iff {s : Text} : s.toList = [] ↔ s = "" := toList_inj (t := "")

@[simp] theorem ofList_eq_empty_iff {cs : List CodePoint} : ofList cs = "" ↔ cs = [] := by
  rw [← toList_eq_nil_iff, toList_ofList]

theorem ofList_append (cs ds : List CodePoint) : ofList (cs ++ ds) = ofList cs ++ ofList ds := rfl

/-- A literal names one text only. -/
@[simp] theorem ofString_inj {s t : String} : ofString s = ofString t ↔ s = t := by
  rw [ofString, ofString, ofChars, ofChars, ofList.injEq,
    List.map_inj_right fun _ _ => CodePoint.char.inj, String.toList_inj]

def length (s : Text) : Nat := s.toList.length

def isEmpty (s : Text) : Bool := s.toList.isEmpty

/-- Texts one behind the other. -/
def join (texts : List Text) : Text := .ofList (texts.flatMap toList)

@[simp] theorem toList_join (texts : List Text) : (join texts).toList = texts.flatMap toList := rfl

@[simp] theorem join_cons (s : Text) (texts : List Text) : join (s :: texts) = s ++ join texts :=
  rfl

@[simp] theorem join_singleton (s : Text) : join [s] = s :=
  toList_inj.mp (List.flatMap_singleton toList s)

/-- Texts one behind the other, with a text between each two. -/
def intercalate (separator : Text) : List Text → Text
  | [] => ""
  | text :: rest => text ++ join (rest.map (separator ++ ·))

/-- A label with an index in brackets. -/
def indexed (label : Text) (index : Nat) : Text := label ++ "[" ++ toString index ++ "]"

/-- The numbers of the code points, by which texts are ordered. -/
def codes (s : Text) : List Nat := s.toList.map CodePoint.toNat

theorem codes_inj {s t : Text} : s.codes = t.codes ↔ s = t := by
  rw [codes, codes, List.map_inj_right fun _ _ => CodePoint.toNat_inj.mp, toList_inj]

instance : LE Text := ⟨fun s t => List.le s.codes t.codes⟩

instance (s t : Text) : Decidable (s ≤ t) := inferInstanceAs (Decidable (List.le s.codes t.codes))

end Text
end EndpointRules
