import EndpointRules.Cache.Key
import EndpointRules.Proofs.Json.Equality

/-! Keys tell mappings apart, and nothing else: two frames have one key exactly when they give the
same names the same values. The order in which names or the fields of records were entered leaves no
trace, and the words for kinds keep values apart that are equal otherwise. -/

namespace EndpointRules

namespace Value

/-- Values that are the same, records as mappings: the same names, with the same value for each.
Values of two kinds are never the same. -/
inductive Same : Value → Value → Prop
  | string (s : Text) : Same (.string s) (.string s)
  | bool (b : Bool) : Same (.bool b) (.bool b)
  | int (n : Int) : Same (.int n) (.int n)
  | list {items others : List Value} :
      List.Forall₂ Same items others → Same (.list items) (.list others)
  | record {fields others : List (Text × Value)} :
      (∀ name, Fields.hasKey name fields = Fields.hasKey name others) →
      (∀ name v w, Fields.get? name fields = some v → Fields.get? name others = some w → Same v w) →
      Same (.record fields) (.record others)

@[simp] theorem distinct_list_iff {items : List Value} :
    (list items).Distinct ↔ ∀ v ∈ items, v.Distinct := by
  constructor
  · rintro ⟨⟩
    assumption
  · exact .list

@[simp] theorem distinct_record_iff {fields : List (Text × Value)} :
    (record fields).Distinct ↔
      (Fields.keys fields).Nodup ∧ ∀ field ∈ fields, field.2.Distinct := by
  constructor
  · rintro ⟨⟩
    exact ⟨‹_›, ‹_›⟩
  · rintro ⟨hkeys, hfields⟩
    exact .record hkeys hfields

attribute [simp] Distinct.string Distinct.bool Distinct.int

private theorem same_list_iff {items others : List Value} :
    Same (.list items) (.list others) ↔ List.Forall₂ Same items others := by
  constructor
  · rintro ⟨⟩
    assumption
  · exact .list

private theorem same_record_iff {fields others : List (Text × Value)} :
    Same (.record fields) (.record others) ↔
      (∀ name, Fields.hasKey name fields = Fields.hasKey name others) ∧
      ∀ name v w, Fields.get? name fields = some v → Fields.get? name others = some w →
        Same v w := by
  constructor
  · rintro ⟨⟩
    exact ⟨‹_›, ‹_›⟩
  · rintro ⟨hnames, hvalues⟩
    exact .record hnames hvalues

private theorem Same.kindWord_eq {v w : Value} (h : v.Same w) : v.kindWord = w.kindWord := by
  cases h <;> rfl

/-- The word for the kind of a value can be read off its key. -/
private theorem kindWord_eq_of_key {v w : Value} (h : v.key = w.key) : v.kindWord = w.kindWord :=
  (Key.labelled_inj.mp h).1

/-- Values of two kinds have neither one key nor anything else in common. -/
private theorem key_eq_iff_of_kind_ne {v w : Value} (h : v.kindWord ≠ w.kindWord) :
    v.key = w.key ↔ v.Same w :=
  iff_of_false (mt kindWord_eq_of_key h) (mt Same.kindWord_eq h)

/-- Two values have one key exactly when they are the same. -/
private theorem key_eq_iff {v w : Value} (hv : v.Distinct) (hw : w.Distinct) :
    v.key = w.key ↔ v.Same w := by
  induction v using Value.ind generalizing w with
  | string s =>
    cases w with
    | string t =>
      constructor <;> rintro ⟨⟩
      · exact .string s
      · rfl
    | _ => exact key_eq_iff_of_kind_ne (by simp [kindWord])
  | bool b =>
    cases w with
    | bool c =>
      constructor
      · intro h
        have hsame : b = c := by cases b <;> cases c <;> simp_all [key, contentKey]
        exact hsame ▸ .bool b
      · rintro ⟨⟩
        rfl
    | _ => exact key_eq_iff_of_kind_ne (by simp [kindWord])
  | int n =>
    cases w with
    | int m =>
      constructor <;> rintro ⟨⟩
      · exact .int n
      · rfl
    | _ => exact key_eq_iff_of_kind_ne (by simp [kindWord])
  | list items ih =>
    cases w with
    | list others =>
      have hitems := distinct_list_iff.mp hv
      have hothers := distinct_list_iff.mp hw
      rw [list_key_inj, same_list_iff, ← List.forall₂_eq_eq_eq, List.forall₂_map_left_iff,
        List.forall₂_map_right_iff, List.forall₂_iff_zip, List.forall₂_iff_zip]
      refine and_congr_right fun _ => forall₂_congr fun v w => forall_congr' fun hpair => ?_
      obtain ⟨hmem, hother⟩ := List.of_mem_zip hpair
      exact ih v hmem (hitems v hmem) (hothers w hother)
    | _ => exact key_eq_iff_of_kind_ne (by simp [kindWord])
  | record fields ih =>
    cases w with
    | record others =>
      obtain ⟨hkeys, hfields⟩ := distinct_record_iff.mp hv
      obtain ⟨hnames, hothers⟩ := distinct_record_iff.mp hw
      rw [record_key_inj, Fields.sorted_map_eq_iff key hkeys hnames, same_record_iff]
      refine and_congr_right fun _ => forall₃_congr fun name v w => ?_
      refine forall_congr' fun hget => forall_congr' fun hother => ?_
      have hmem := Fields.mem_of_get? hget
      exact ih _ hmem (hfields _ hmem) (hothers _ (Fields.mem_of_get? hother))
    | _ => exact key_eq_iff_of_kind_ne (by simp [kindWord])

end Value

namespace Frame
variable {f g : Frame}

/-- A mapping: no name is bound twice, and no record in a value has two fields of one name. -/
structure Distinct (f : Frame) : Prop where
  names : (Fields.keys f).Nodup
  values : ∀ name v, (name, some v) ∈ f → v.Distinct

/-- Two frames bind the same names, and each of them to the same value or to none in both. -/
structure Same (f g : Frame) : Prop where
  names : ∀ name, Fields.hasKey name f = Fields.hasKey name g
  values : ∀ name v w, Fields.get? name f = some v → Fields.get? name g = some w →
    Option.Rel Value.Same v w

/-- The word for the kind of a value that may be absent can be read off its key. -/
private theorem kindWordOf_eq_of_key {v w : Option Value} (h : Value.keyOf v = Value.keyOf w) :
    Value.kindWordOf v = Value.kindWordOf w := by
  cases v with
  | none =>
    cases w with
    | none => rfl
    | some w => simp [Value.keyOf, Value.key, Key.labelled] at h
  | some v =>
    cases w with
    | none => simp [Value.keyOf, Value.key, Key.labelled] at h
    | some w => exact Value.kindWord_eq_of_key h

theorem keyOf_eq_iff {v w : Option Value} (hv : ∀ u, v = some u → u.Distinct)
    (hw : ∀ u, w = some u → u.Distinct) :
    Value.keyOf v = Value.keyOf w ↔ Option.Rel Value.Same v w := by
  cases v with
  | none =>
    cases w with
    | none => exact iff_of_true rfl .none
    | some w => exact iff_of_false (by simp [Value.keyOf, Value.key, Key.labelled]) (by rintro ⟨⟩)
  | some v =>
    cases w with
    | none => exact iff_of_false (by simp [Value.keyOf, Value.key, Key.labelled]) (by rintro ⟨⟩)
    | some w =>
      rw [Option.rel_some_some]
      exact Value.key_eq_iff (hv v rfl) (hw w rfl)

/-- Frames have one key exactly when they bind the same names, and each of them to values with one
key. -/
private theorem key_eq_iff_keyOf (hf : f.Distinct) (hg : g.Distinct) : f.key = g.key ↔
    (∀ name, Fields.hasKey name f = Fields.hasKey name g) ∧
    ∀ name v w, Fields.get? name f = some v → Fields.get? name g = some w →
      Value.keyOf v = Value.keyOf w := by
  rw [key, key, Key.ofEntries_inj]
  exact Fields.sorted_map_eq_iff Value.keyOf hf.names hg.names

private theorem key_eq_iff (hf : f.Distinct) (hg : g.Distinct) : f.key = g.key ↔ f.Same g := by
  have hvalue {frame : Frame} (h : frame.Distinct) {name : Text} {v : Option Value}
      (hget : Fields.get? name frame = some v) : ∀ u, v = some u → u.Distinct :=
    fun u hu => h.values name u (hu ▸ Fields.mem_of_get? hget)
  rw [key_eq_iff_keyOf hf hg]
  constructor
  · rintro ⟨hnames, hequal⟩
    refine ⟨hnames, fun name v w hv hw => ?_⟩
    exact (keyOf_eq_iff (hvalue hf hv) (hvalue hg hw)).mp (hequal name v w hv hw)
  · rintro ⟨hnames, hsame⟩
    refine ⟨hnames, fun name v w hv hw => ?_⟩
    exact (keyOf_eq_iff (hvalue hf hv) (hvalue hg hw)).mpr (hsame name v w hv hw)

private theorem key_of_perm (hf : f.Distinct) (h : f.Perm g) : f.key = g.key := by
  have hget := Fields.get?_of_perm hf.names h
  refine Key.ofEntries_inj.mpr ((Fields.sorted_map_eq_iff Value.keyOf hf.names
    ((h.map _).nodup_iff.mp hf.names)).mpr ⟨fun name => ?_, fun name v w hv hw => ?_⟩)
  · rw [Fields.hasKey, Fields.hasKey, hget name]
  · rw [hget name, hw] at hv
    cases hv
    rfl

/-- Two frames have one key exactly when they are the same mapping. In particular values of two
kinds under one name give two keys, and the order of the entries does not matter. -/
theorem canonical_identifies (hf : f.Distinct) (hg : g.Distinct) :
    (f.key = g.key ↔ f.Same g) ∧
    (f.key = g.key → ∀ name v w, Fields.get? name f = some v →
      Fields.get? name g = some w → Value.kindWordOf v = Value.kindWordOf w) ∧
    ∀ other : Frame, f.Perm other → f.key = other.key := by
  refine ⟨key_eq_iff hf hg, fun h name v w hv hw => ?_, fun other => key_of_perm hf⟩
  exact kindWordOf_eq_of_key (((key_eq_iff_keyOf hf hg).mp h).2 name v w hv hw)

/-- A frame with a record inside of a record, and the same one with all entries the other way
round. -/
def nestedFrame : Frame := [
  ("A", some (.record [("x", .int 1), ("y", .record [("u", .bool true), ("v", .list [])])])),
  ("B", none)]

def turnedFrame : Frame := [
  ("B", none),
  ("A", some (.record [("y", .record [("v", .list []), ("u", .bool true)]), ("x", .int 1)]))]

private theorem nestedFrame_distinct : nestedFrame.Distinct where
  names := by decide
  values := by simp [nestedFrame, Fields.keys]

private theorem turnedFrame_distinct : turnedFrame.Distinct where
  names := by decide
  values := by simp [turnedFrame, Fields.keys]

theorem canonical_identifies_sample : nestedFrame.Distinct ∧ turnedFrame.Distinct ∧
    nestedFrame.key = turnedFrame.key ∧ nestedFrame.Same turnedFrame :=
  ⟨nestedFrame_distinct, turnedFrame_distinct, rfl,
    (canonical_identifies nestedFrame_distinct turnedFrame_distinct).1.mp rfl⟩

end Frame
end EndpointRules
