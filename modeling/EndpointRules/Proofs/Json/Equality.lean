import EndpointRules.Proofs.Fields
import EndpointRules.Value.Basic
import Mathlib.Data.List.Forall2
import Mathlib.Data.Rat.Cast.Order
import Mathlib.Tactic.FieldSimp

/-! Equality of JSON data as their readers understand it: numbers by their size, and objects by what
they have for each key. The comparison that looks up the members of one object in the other decides
it for data whose objects have no key twice. -/

namespace EndpointRules

namespace Double

/-- The number that a finite double is. -/
def toRat? : Double → Option ℚ
  | .finite negative significand exponent =>
    some ((if negative then -1 else 1) * (significand * 2 ^ exponent))
  | _ => none

end Double

namespace Json

/-- The number for which a datum stands; a truth value stands for one or zero. -/
def number? : Json → Option ℚ
  | .bool b => some (if b then 1 else 0)
  | .int n => some n
  | .float x => x.toRat?
  | _ => none

/-- No object in a datum has two members of one key. -/
inductive Distinct : Json → Prop
  | null : Distinct .null
  | bool (b : Bool) : Distinct (.bool b)
  | int (n : Int) : Distinct (.int n)
  | float (x : Double) : Distinct (.float x)
  | str (s : Text) : Distinct (.str s)
  | arr {items : List Json} : (∀ item ∈ items, Distinct item) → Distinct (.arr items)
  | obj {fields : List (Text × Json)} :
      (Fields.keys fields).Nodup → (∀ field ∈ fields, Distinct field.2) → Distinct (.obj fields)

@[simp] theorem distinct_arr_iff {items : List Json} :
    (arr items).Distinct ↔ ∀ item ∈ items, item.Distinct := by
  constructor
  · intro h
    cases h with
    | arr hitems => exact hitems
  · exact .arr

@[simp] theorem distinct_obj_iff {fields : List (Text × Json)} :
    (obj fields).Distinct ↔ (Fields.keys fields).Nodup ∧ ∀ field ∈ fields, field.2.Distinct := by
  constructor
  · intro h
    cases h with
    | obj hkeys hmembers => exact ⟨hkeys, hmembers⟩
  · rintro ⟨hkeys, hmembers⟩
    exact .obj hkeys hmembers

attribute [simp] Distinct.null Distinct.bool Distinct.int Distinct.float Distinct.str

/-! What the comparison looks for. -/

end Json

namespace Value

/-- Induction with a hypothesis for each direct part of a value. -/
@[elab_as_elim]
theorem ind {motive : Value → Prop} (string : ∀ s, motive (.string s))
    (bool : ∀ b, motive (.bool b)) (int : ∀ n, motive (.int n))
    (list : ∀ items, (∀ v ∈ items, motive v) → motive (.list items))
    (record : ∀ fields, (∀ field ∈ fields, motive field.2) → motive (.record fields))
    (v : Value) : motive v :=
  @Value.rec motive (fun items => ∀ v ∈ items, motive v)
    (fun fields => ∀ field ∈ fields, motive field.2) (fun field => motive field.2)
    string bool int list record
    (fun _ h => absurd h List.not_mem_nil)
    (fun _ _ first rest => List.forall_mem_cons.mpr ⟨first, rest⟩)
    (fun _ h => absurd h List.not_mem_nil)
    (fun _ _ first rest => List.forall_mem_cons.mpr ⟨first, rest⟩)
    (fun _ _ h => h) v

/-- No record in a value has two fields of one name. -/
inductive Distinct : Value → Prop
  | string (s : Text) : Distinct (.string s)
  | bool (b : Bool) : Distinct (.bool b)
  | int (n : Int) : Distinct (.int n)
  | list {items : List Value} : (∀ v ∈ items, Distinct v) → Distinct (.list items)
  | record {fields : List (Text × Value)} :
      (Fields.keys fields).Nodup → (∀ field ∈ fields, Distinct field.2) →
      Distinct (.record fields)

theorem itemsToJson_eq_map (items : List Value) : itemsToJson items = items.map toJson := by
  induction items with
  | nil => rfl
  | cons v rest ih => rw [itemsToJson, ih, List.map_cons]

theorem fieldsToJson_eq_map (fields : List (Text × Value)) :
    fieldsToJson fields = fields.map fun field => (field.1, field.2.toJson) := by
  induction fields with
  | nil => rfl
  | cons field rest ih => rw [fieldsToJson, ih, List.map_cons]

end Value
end EndpointRules
