import EndpointRules.Text.Basic

/-! Ordered entries with text keys. -/

namespace EndpointRules.Fields
variable {α β : Type}

/-- The first entry of a key. -/
def get? (key : Text) : List (Text × α) → Option α
  | [] => none
  | (name, x) :: rest => if name = key then some x else get? key rest

def hasKey (key : Text) (fields : List (Text × α)) : Bool :=
  (get? key fields).isSome

/-- Writes an entry: a key that is present keeps its place, and a new one goes to the end. -/
def put (key : Text) (x : α) : List (Text × α) → List (Text × α)
  | [] => [(key, x)]
  | (name, y) :: rest =>
    if name = key then (key, x) :: rest else (name, y) :: put key x rest

/-- Writes entries one after another, so that the last one of a key stays. -/
def putAll (fields entries : List (Text × α)) : List (Text × α) :=
  entries.foldl (fun done entry => put entry.1 entry.2 done) fields

def drop (key : Text) (fields : List (Text × α)) : List (Text × α) :=
  fields.filter fun field => field.1 ≠ key

def keys (fields : List (Text × α)) : List Text := fields.map (·.1)

/-- The first key, reading in order, that has been seen before. -/
def repeated? (seen : List Text) : List (Text × α) → Option Text
  | [] => none
  | (name, _) :: rest => if seen.contains name then some name else repeated? (name :: seen) rest

/-- Puts an entry before the first one whose key is not smaller. -/
def insertSorted (entry : Text × α) : List (Text × α) → List (Text × α)
  | [] => [entry]
  | first :: rest =>
    if entry.1 ≤ first.1 then entry :: first :: rest else first :: insertSorted entry rest

/-- The entries in the order of their keys, by code points. -/
def sorted (fields : List (Text × α)) : List (Text × α) :=
  fields.foldr insertSorted []

/-- Writing an entry changes what is found for its key only. -/
theorem get?_put (key other : Text) (x : α) (fields : List (Text × α)) :
    get? other (put key x fields) = if key = other then some x else get? other fields := by
  induction fields with
  | nil => simp [put, get?]
  | cons entry rest ih =>
    obtain ⟨name, y⟩ := entry
    by_cases hk : name = key
    · subst hk
      by_cases ho : name = other <;> simp [put, get?, ho]
    · by_cases ho : name = other
      · subst ho
        simp [put, get?, hk, Ne.symm hk]
      · simp [put, get?, hk, ho, ih]

/-- A key is present when it is one of the keys. -/
theorem hasKey_iff_mem_keys (key : Text) (fields : List (Text × α)) :
    hasKey key fields = true ↔ key ∈ keys fields := by
  induction fields with
  | nil => simp [hasKey, get?, keys]
  | cons entry rest ih =>
    obtain ⟨name, y⟩ := entry
    by_cases h : name = key
    · simp [hasKey, get?, keys, h]
    · simp only [hasKey, get?, keys, h, if_false, List.map_cons, List.mem_cons] at ih ⊢
      simp [ih, Ne.symm h]

theorem get?_eq_none_iff (key : Text) (fields : List (Text × α)) :
    get? key fields = none ↔ key ∉ keys fields := by
  rw [← hasKey_iff_mem_keys, hasKey, Bool.not_eq_true, Option.isSome_eq_false_iff,
    Option.isNone_iff_eq_none]

/-- The first entries are searched first. -/
theorem get?_append (key : Text) (fields more : List (Text × α)) :
    get? key (fields ++ more) = (get? key fields).or (get? key more) := by
  induction fields with
  | nil => rfl
  | cons entry rest ih =>
    rw [List.cons_append, get?, get?]
    split
    · rfl
    · exact ih

/-- A key that is present keeps its place, and a new one goes to the end. -/
theorem keys_put (key : Text) (x : α) (fields : List (Text × α)) :
    keys (put key x fields) =
      if key ∈ keys fields then keys fields else keys fields ++ [key] := by
  induction fields with
  | nil => simp [put, keys]
  | cons entry rest ih =>
    obtain ⟨name, y⟩ := entry
    by_cases h : name = key
    · simp [put, keys, h]
    · simp only [keys] at ih
      by_cases hm : key ∈ rest.map (·.1) <;> simp [put, keys, h, Ne.symm h, ih, hm]

end EndpointRules.Fields
