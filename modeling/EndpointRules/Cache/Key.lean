import EndpointRules.Value.Basic

/-! Keys of frames. Frames that bind the same names to the same values have one key, whatever the
order of names and of the fields of records. A value stands in a key next to the word for its kind,
which alone keeps a truth value from the number that it is equal to. -/

namespace EndpointRules

/-- A key. Truth values count as one and zero in it. -/
inductive Key where
  | text (s : Text)
  | number (n : Int)
  | tuple (items : List Key)
  deriving Repr, Inhabited

namespace Key

mutual
private def decEqKey : (k l : Key) → Decidable (k = l)
  | .text s, .text t => decidable_of_iff (s = t) (by simp)
  | .number m, .number n => decidable_of_iff (m = n) (by simp)
  | .tuple xs, .tuple ys =>
    match decEqKeys xs ys with
    | isTrue h => isTrue (by rw [h])
    | isFalse h => isFalse (by simp [h])
  | .text _, .number _ | .text _, .tuple _ | .number _, .text _ | .number _, .tuple _
  | .tuple _, .text _ | .tuple _, .number _ => isFalse (by simp)

private def decEqKeys : (xs ys : List Key) → Decidable (xs = ys)
  | [], [] => isTrue rfl
  | x :: xs, y :: ys =>
    match decEqKey x y, decEqKeys xs ys with
    | isTrue h, isTrue t => isTrue (by rw [h, t])
    | isFalse h, _ => isFalse (by simp [h])
    | _, isFalse t => isFalse (by simp [t])
  | [], _ :: _ | _ :: _, [] => isFalse (by simp)
end

instance : DecidableEq Key := decEqKey

/-- A key with a word in front of it. -/
def labelled (label : Text) (key : Key) : Key := .tuple [.text label, key]

/-- The entries of a mapping in the order of their names. -/
def ofEntries (entries : List (Text × Key)) : Key :=
  .tuple ((Fields.sorted entries).map fun (name, key) => labelled name key)

@[simp] theorem labelled_inj {label other : Text} {k l : Key} :
    labelled label k = labelled other l ↔ label = other ∧ k = l := by
  simp [labelled]

theorem ofEntries_inj {entries others : List (Text × Key)} :
    ofEntries entries = ofEntries others ↔ Fields.sorted entries = Fields.sorted others := by
  rw [ofEntries, ofEntries, tuple.injEq]
  exact List.map_inj_right fun _ _ h => Prod.ext_iff.mpr (labelled_inj.mp h)

/-- The truth value that stands as a number in a pair with the word for its kind. -/
def truth? : List Key → Option Bool
  | [.text label, .number n] => if label = "bool" then some (n ≠ 0) else none
  | _ => none

mutual
/-- A key as messages show it. -/
def literal : Key → Text
  | .text s => Text.quoted s
  | .number n => toString n
  | .tuple items =>
    match truth? items with
    | some b => Text.tupled [Text.quoted "bool", Json.literal (.bool b)]
    | none => Text.tupled (literals items)

def literals : List Key → List Text
  | [] => []
  | key :: rest => key.literal :: literals rest
end

end Key

namespace Value

mutual
/-- What a value holds, as a key. -/
def contentKey : Value → Key
  | .string s => .text s
  | .bool b => .number (if b then 1 else 0)
  | .int n => .number n
  | .list items => .tuple (itemKeys items)
  | .record fields => .ofEntries (fieldKeys fields)

def itemKeys : List Value → List Key
  | [] => []
  | v :: rest => .labelled v.kindWord v.contentKey :: itemKeys rest

def fieldKeys : List (Text × Value) → List (Text × Key)
  | [] => []
  | (name, v) :: rest => (name, .labelled v.kindWord v.contentKey) :: fieldKeys rest
end

/-- The key of a value. -/
def key (v : Value) : Key := .labelled v.kindWord v.contentKey

theorem itemKeys_eq_map (items : List Value) : itemKeys items = items.map key := by
  induction items with
  | nil => rfl
  | cons v rest ih => rw [itemKeys, ih, List.map_cons, key]

theorem fieldKeys_eq_map (fields : List (Text × Value)) :
    fieldKeys fields = fields.map fun (name, v) => (name, v.key) := by
  induction fields with
  | nil => rfl
  | cons field rest ih =>
    rw [fieldKeys, ih]
    rfl

theorem list_key_inj {items others : List Value} :
    (list items).key = (list others).key ↔ items.map key = others.map key := by
  rw [← itemKeys_eq_map, ← itemKeys_eq_map, ← Key.tuple.injEq, ← contentKey, ← contentKey]
  simp [key, kindWord]

theorem record_key_inj {fields others : List (Text × Value)} :
    (record fields).key = (record others).key ↔
      Fields.sorted (fields.map fun (name, v) => (name, v.key)) =
        Fields.sorted (others.map fun (name, v) => (name, v.key)) := by
  rw [← fieldKeys_eq_map, ← fieldKeys_eq_map, ← Key.ofEntries_inj, ← contentKey, ← contentKey]
  simp [key, kindWord]

/-- The key of a value that may be absent. -/
def keyOf : Option Value → Key
  | none => .tuple [.text "none"]
  | some v => v.key

end Value

/-- The key of a frame. -/
def Frame.key (frame : Frame) : Key :=
  .ofEntries (frame.map fun (name, v) => (name, Value.keyOf v))

end EndpointRules
