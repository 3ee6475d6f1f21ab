import EndpointRules.Argument
import EndpointRules.Proofs.Json.Equality
import EndpointRules.Proofs.Outcome
import EndpointRules.Proofs.Related

/-! Values converted to data and back. Every value is found again in its data. A datum has a value
unless a number with a fraction or an exponent stands in it or null in one of its arrays, and the
data of that value are the datum less what is null in its objects. -/

namespace EndpointRules

namespace Value

/-- The data of a value that may be absent; an absent one is null. -/
def jsonOf : Option Value → Json
  | none => .null
  | some v => v.toJson

private theorem jsonOf_eq_null_iff {v : Option Value} : jsonOf v = .null ↔ v = none := by
  rcases v with _ | (_ | _ | _ | _ | _) <;> simp [jsonOf, toJson]

end Value

namespace Json

/-- Induction with a hypothesis for each direct part of a datum. -/
@[elab_as_elim]
private theorem ind {motive : Json → Prop} (null : motive .null) (bool : ∀ b, motive (.bool b))
    (int : ∀ n, motive (.int n)) (float : ∀ x, motive (.float x)) (str : ∀ s, motive (.str s))
    (arr : ∀ items, (∀ d ∈ items, motive d) → motive (.arr items))
    (obj : ∀ fields, (∀ field ∈ fields, motive field.2) → motive (.obj fields))
    (d : Json) : motive d :=
  @Json.rec motive (fun items => ∀ d ∈ items, motive d)
    (fun fields => ∀ field ∈ fields, motive field.2) (fun field => motive field.2)
    null bool int float str arr obj
    (fun _ h => absurd h List.not_mem_nil)
    (fun _ _ first rest => List.forall_mem_cons.mpr ⟨first, rest⟩)
    (fun _ h => absurd h List.not_mem_nil)
    (fun _ _ first rest => List.forall_mem_cons.mpr ⟨first, rest⟩)
    (fun _ _ h => h) d

/-- A datum stands in another one, at any depth. -/
inductive Occurs (inner : Json) : Json → Prop
  | here : Occurs inner inner
  | item {items : List Json} {d : Json} : d ∈ items → Occurs inner d → Occurs inner (.arr items)
  | member {fields : List (Text × Json)} {field : Text × Json} :
      field ∈ fields → Occurs inner field.2 → Occurs inner (.obj fields)

mutual
/-- A datum without the members of its objects that are null, at every depth. -/
def withoutNulls : Json → Json
  | .arr items => .arr (itemsWithoutNulls items)
  | .obj fields => .obj (membersWithoutNulls fields)
  | .null => .null
  | .bool b => .bool b
  | .int n => .int n
  | .float x => .float x
  | .str s => .str s

def itemsWithoutNulls : List Json → List Json
  | [] => []
  | d :: rest => d.withoutNulls :: itemsWithoutNulls rest

def membersWithoutNulls : List (Text × Json) → List (Text × Json)
  | [] => []
  | (_, .null) :: rest => membersWithoutNulls rest
  | (key, d) :: rest => (key, d.withoutNulls) :: membersWithoutNulls rest
end

private theorem itemsWithoutNulls_eq_map (items : List Json) :
    itemsWithoutNulls items = items.map withoutNulls := by
  induction items with
  | nil => rfl
  | cons d rest ih => rw [itemsWithoutNulls, ih, List.map_cons]

private theorem membersWithoutNulls_cons {d : Json} (h : d ≠ .null) (key : Text)
    (rest : List (Text × Json)) :
    membersWithoutNulls ((key, d) :: rest) = (key, d.withoutNulls) :: membersWithoutNulls rest := by
  cases d with
  | null => exact absurd rfl h
  | _ => rfl

private theorem withoutNulls_eq_null_iff {d : Json} : d.withoutNulls = .null ↔ d = .null := by
  cases d <;> simp [withoutNulls]

/-! Conversion of data. -/

/-- The value of a datum, or why it has none. -/
def converted (d : Json) : Except Argument.ConversionError (Option Value) :=
  (Argument.ofJson d).toValue

def convertedItems (items : List Json) : Except Argument.ConversionError (List (Option Value)) :=
  Argument.itemValues (Argument.itemsOfJson items)

variable {items : List Json} {fields : List (Text × Json)} {vs : List (Option Value)}
  {v : Option Value} {d inner : Json} {e : Argument.ConversionError}

private theorem convertedItems_cons (d : Json) (rest : List Json) : convertedItems (d :: rest) =
    d.converted >>= fun v => convertedItems rest >>= fun others => .ok (v :: others) := rfl

private theorem convertedItems_ok_iff : convertedItems items = .ok vs ↔
    List.Forall₂ (fun d v => d.converted = .ok v) items vs := by
  induction items generalizing vs with
  | nil =>
    constructor
    · rintro ⟨⟩
      exact .nil
    · rintro ⟨⟩
      rfl
  | cons d rest ih =>
    simp only [convertedItems_cons, Outcome.bind_ok_iff, ih]
    constructor
    · rintro ⟨v, hv, others, hothers, h⟩
      cases h
      exact .cons hv hothers
    · rintro (_ | ⟨hv, hothers⟩)
      exact ⟨_, hv, _, hothers, rfl⟩

private theorem exists_of_convertedItems_error (h : convertedItems items = .error e) :
    ∃ d ∈ items, d.converted = .error e := by
  induction items with
  | nil => cases h
  | cons d rest ih =>
    rw [convertedItems_cons, Outcome.bind_error_iff] at h
    rcases h with hd | ⟨v, -, h⟩
    · exact ⟨d, List.mem_cons_self, hd⟩
    · rcases Outcome.bind_error_iff.mp h with hrest | ⟨others, -, h⟩
      · obtain ⟨d', hmem, hd'⟩ := ih hrest
        exact ⟨d', List.mem_cons_of_mem _ hmem, hd'⟩
      · cases h

private theorem exists_of_mem_items (h : convertedItems items = .ok vs) (hd : d ∈ items) :
    ∃ v ∈ vs, d.converted = .ok v :=
  Related.exists_of_mem_left (convertedItems_ok_iff.mp h) hd

private theorem exists_of_mem_values (h : convertedItems items = .ok vs) (hv : v ∈ vs) :
    ∃ d ∈ items, d.converted = .ok v :=
  Related.exists_of_mem_right (convertedItems_ok_iff.mp h) hv

private theorem converted_arr (items : List Json) : (arr items).converted =
    convertedItems items >>= fun vs =>
      if vs.all Option.isSome then .ok (some (.list (vs.filterMap id)))
      else .error .absentItem := rfl

/-- The entries of a record, less those without a value. -/
def present (fields : List (Text × Json)) (vs : List (Option Value)) : List (Text × Value) :=
  (fields.zip vs).filterMap fun entry => entry.2.map fun v => (entry.1.1, v)

/-- The members of an object are converted as the items of an array are, whatever becomes of the
values they have. -/
private theorem fieldValues_fieldsOfJson (fields : List (Text × Json)) :
    Argument.fieldValues (Argument.fieldsOfJson fields) =
      (convertedItems (fields.map Prod.snd)).map (present fields) := by
  induction fields with
  | nil => rfl
  | cons field rest ih =>
    have hstep : Argument.fieldValues (Argument.fieldsOfJson (field :: rest)) =
        field.2.converted >>= fun first =>
          Argument.fieldValues (Argument.fieldsOfJson rest) >>= fun others =>
            match first with
            | none => .ok others
            | some v => .ok ((field.1, v) :: others) := rfl
    rw [hstep, ih, List.map_cons, convertedItems_cons]
    rcases field.2.converted with e | (_ | v)
    · rfl
    all_goals
      cases convertedItems (rest.map Prod.snd) <;> rfl

private theorem converted_obj (fields : List (Text × Json)) : (obj fields).converted =
    (convertedItems (fields.map Prod.snd)).map fun vs => some (.record (present fields vs)) := by
  have h : (obj fields).converted =
      Argument.fieldValues (Argument.fieldsOfJson fields) >>= fun entries =>
        .ok (some (.record entries)) := rfl
  rw [h, fieldValues_fieldsOfJson]
  cases convertedItems (fields.map Prod.snd) <;> rfl

/-! The data of the value of a datum. -/

private theorem map_toJson_filterMap (h : vs.all Option.isSome = true) :
    (vs.filterMap id).map Value.toJson = vs.map Value.jsonOf := by
  induction vs with
  | nil => rfl
  | cons v rest ih =>
    cases v with
    | none => cases h
    | some v => exact congrArg (v.toJson :: ·) (ih h)

/-- The entries that are left out are the ones whose datum is null. -/
private theorem fieldsToJson_present
    (h : List.Forall₂ (fun d v => Value.jsonOf v = d.withoutNulls) (fields.map Prod.snd) vs) :
    Value.fieldsToJson (present fields vs) = membersWithoutNulls fields := by
  induction fields generalizing vs with
  | nil =>
    cases h
    rfl
  | cons field rest ih =>
    obtain ⟨key, d⟩ := field
    obtain _ | ⟨hd, hrest⟩ := h
    rename_i v others
    cases v with
    | none =>
      cases withoutNulls_eq_null_iff.mp hd.symm
      exact ih hrest
    | some v =>
      have hnull : d ≠ .null := by
        rintro rfl
        exact Option.some_ne_none v (Value.jsonOf_eq_null_iff.mp hd)
      rw [membersWithoutNulls_cons hnull, ← hd, ← ih hrest]
      rfl

/-- What holds of each item and its value holds of all of them in their order. -/
private theorem forall₂_jsonOf (h : convertedItems items = .ok vs)
    (hitems : ∀ d ∈ items, ∀ v, d.converted = .ok v → Value.jsonOf v = d.withoutNulls) :
    List.Forall₂ (fun d v => Value.jsonOf v = d.withoutNulls) items vs := by
  obtain ⟨hlength, hzip⟩ := List.forall₂_iff_zip.mp (convertedItems_ok_iff.mp h)
  exact List.forall₂_iff_zip.mpr
    ⟨hlength, fun hpair => hitems _ (List.of_mem_zip hpair).1 _ (hzip hpair)⟩

/-- The data of the value of a datum are the datum itself, less what is null in its objects. -/
private theorem jsonOf_of_converted (h : d.converted = .ok v) :
    Value.jsonOf v = d.withoutNulls := by
  induction d using Json.ind generalizing v with
  | arr items ih =>
    obtain ⟨vs, hvs, h⟩ := Outcome.bind_ok_iff.mp (converted_arr items ▸ h)
    split at h
    · next hall =>
      cases h
      have hitems : items.map withoutNulls = vs.map Value.jsonOf := by
        rw [← List.forall₂_eq_eq_eq, List.forall₂_map_left_iff, List.forall₂_map_right_iff]
        exact (forall₂_jsonOf hvs fun d hd _ => ih d hd).imp fun _ _ => Eq.symm
      rw [Value.jsonOf, Value.toJson, withoutNulls, Value.itemsToJson_eq_map,
        itemsWithoutNulls_eq_map, map_toJson_filterMap hall, hitems]
    · cases h
  | obj fields ih =>
    obtain ⟨vs, hvs, rfl⟩ := Outcome.map_ok_iff.mp (converted_obj fields ▸ h)
    have hmembers : ∀ d ∈ fields.map Prod.snd, ∀ v, d.converted = .ok v →
        Value.jsonOf v = d.withoutNulls :=
      List.forall_mem_map.mpr fun field hfield _ => ih field hfield
    rw [Value.jsonOf, Value.toJson, withoutNulls,
      fieldsToJson_present (forall₂_jsonOf hvs hmembers)]
  | float x => cases h
  | _ =>
    cases h
    rfl

private theorem converted_eq_none_iff : d.converted = .ok none ↔ d = .null := by
  constructor
  · intro h
    exact withoutNulls_eq_null_iff.mp (jsonOf_of_converted h).symm
  · rintro rfl
    rfl

/-! Data without a value. -/

/-- What keeps a datum from having a value: a float that stands in it, or an array in it that holds
null. -/
inductive Unfit (d : Json) : Argument.ConversionError → Prop
  | float {x : Double} : (Json.float x).Occurs d → Unfit d (.unsupported "float")
  | absentItem {items : List Json} : (arr items).Occurs d → .null ∈ items → Unfit d .absentItem

private theorem Unfit.item (hd : d ∈ items) (h : d.Unfit e) : (arr items).Unfit e := by
  cases h with
  | float hx => exact .float (.item hd hx)
  | absentItem hitems hnull => exact .absentItem (.item hd hitems) hnull

private theorem Unfit.member {field : Text × Json} (hfield : field ∈ fields) (h : field.2.Unfit e) :
    (obj fields).Unfit e := by
  cases h with
  | float hx => exact .float (.member hfield hx)
  | absentItem hitems hnull => exact .absentItem (.member hfield hitems) hnull

private theorem unfit_of_converted (h : d.converted = .error e) : d.Unfit e := by
  induction d using Json.ind with
  | arr items ih =>
    rcases Outcome.bind_error_iff.mp (converted_arr items ▸ h) with h | ⟨vs, hvs, h⟩
    · obtain ⟨d, hd, h⟩ := exists_of_convertedItems_error h
      exact (ih d hd h).item hd
    · split at h
      · cases h
      · next hall =>
        cases h
        -- the item of an absent value is null
        obtain ⟨v, hv, hnone⟩ : ∃ v ∈ vs, v = none := by simpa using hall
        subst hnone
        obtain ⟨d, hd, h⟩ := exists_of_mem_values hvs hv
        exact .absentItem .here (converted_eq_none_iff.mp h ▸ hd)
  | obj fields ih =>
    rw [converted_obj] at h
    cases hvs : convertedItems (fields.map Prod.snd) with
    | ok vs => cases hvs ▸ h
    | error e' =>
      cases hvs ▸ h
      obtain ⟨d, hd, h⟩ := exists_of_convertedItems_error hvs
      obtain ⟨field, hfield, rfl⟩ := List.mem_map.mp hd
      exact (ih field hfield h).member hfield
  | float x =>
    cases h
    exact .float .here
  | _ => cases h

private theorem convertedItems_error_of_mem (hd : d ∈ items) (h : d.converted = .error e) :
    ∃ e', convertedItems items = .error e' := by
  cases hvs : convertedItems items with
  | error e' => exact ⟨e', rfl⟩
  | ok vs =>
    obtain ⟨v, -, hv⟩ := exists_of_mem_items hvs hd
    cases hv.symm.trans h

/-- A datum in which one without a value stands has no value, also where the value would have been
left out. -/
private theorem error_of_occurs (h : inner.Occurs d) (hinner : ∃ e, inner.converted = .error e) :
    ∃ e, d.converted = .error e := by
  induction h with
  | here => exact hinner
  | item hd _ ih =>
    obtain ⟨_, he⟩ := ih
    obtain ⟨e, hitems⟩ := convertedItems_error_of_mem hd he
    exact ⟨e, by rw [converted_arr, hitems]; rfl⟩
  | member hfield _ ih =>
    obtain ⟨_, he⟩ := ih
    obtain ⟨e, hitems⟩ := convertedItems_error_of_mem (List.mem_map_of_mem hfield) he
    exact ⟨e, by rw [converted_obj, hitems]; rfl⟩

private theorem error_of_null_mem (h : .null ∈ items) : ∃ e, (arr items).converted = .error e := by
  rw [converted_arr]
  cases hvs : convertedItems items with
  | error e => exact ⟨e, rfl⟩
  | ok vs =>
    obtain ⟨v, hv, hnull⟩ := exists_of_mem_items hvs h
    cases hnull
    have hall : vs.all Option.isSome = false := by
      rw [List.all_eq_false]
      exact ⟨none, hv, Bool.false_ne_true⟩
    exact ⟨.absentItem, if_neg (ne_true_of_eq_false hall)⟩

private theorem error_iff_unfit : (∃ e, d.converted = .error e) ↔ ∃ e, d.Unfit e := by
  constructor
  · rintro ⟨e, h⟩
    exact ⟨e, unfit_of_converted h⟩
  · rintro ⟨_, hx | ⟨hitems, hnull⟩⟩
    · exact error_of_occurs hx ⟨_, rfl⟩
    · exact error_of_occurs hitems (error_of_null_mem hnull)

/-! The value of the data of a value. -/

private theorem present_toJson (fields : List (Text × Value)) :
    present (Value.fieldsToJson fields) (fields.map fun field => some field.2) = fields := by
  induction fields with
  | nil => rfl
  | cons field rest ih => exact congrArg (field :: ·) ih

theorem converted_toJson (v : Value) : v.toJson.converted = .ok (some v) := by
  induction v using Value.ind with
  | list items ih =>
    have hitems : convertedItems (Value.itemsToJson items) = .ok (items.map some) := by
      rw [convertedItems_ok_iff, Value.itemsToJson_eq_map, List.forall₂_map_left_iff,
        List.forall₂_map_right_iff, List.forall₂_same]
      exact ih
    have hall : (items.map some).all Option.isSome = true := by simp
    rw [Value.toJson, converted_arr, hitems]
    refine (if_pos hall).trans ?_
    rw [List.filterMap_map, Function.id_comp, List.filterMap_some]
  | record fields ih =>
    have hmembers : convertedItems ((Value.fieldsToJson fields).map Prod.snd) =
        .ok (fields.map fun field => some field.2) := by
      rw [convertedItems_ok_iff, Value.fieldsToJson_eq_map, List.map_map,
        List.forall₂_map_left_iff, List.forall₂_map_right_iff, List.forall₂_same]
      exact ih
    rw [Value.toJson, converted_obj, hmembers, Except.map, present_toJson]
  | _ => rfl

/-- Each value, and the absence of one, is found again in its data. A datum has no value exactly
when a float stands in it at any depth or null in one of its arrays, and the error says which;
otherwise the data of its value are the datum less the members of its objects that are null. -/
theorem converted_roundtrip :
    (∀ v : Option Value, (Value.jsonOf v).converted = .ok v) ∧
      ∀ d : Json,
        ((∃ e, d.converted = .error e) ↔
          (∃ x, (Json.float x).Occurs d) ∨ ∃ items, (arr items).Occurs d ∧ .null ∈ items) ∧
        (∀ e, d.converted = .error e → d.Unfit e) ∧
        ∀ v, d.converted = .ok v → Value.jsonOf v = d.withoutNulls := by
  refine ⟨?_, fun d => ⟨?_, fun e => unfit_of_converted, fun v => jsonOf_of_converted⟩⟩
  · rintro (_ | v)
    · rfl
    · exact converted_toJson v
  · rw [error_iff_unfit]
    constructor
    · rintro ⟨_, hx | ⟨hitems, hnull⟩⟩
      · exact .inl ⟨_, hx⟩
      · exact .inr ⟨_, hitems, hnull⟩
    · rintro (⟨x, hx⟩ | ⟨items, hitems, hnull⟩)
      · exact ⟨_, .float hx⟩
      · exact ⟨_, .absentItem hitems hnull⟩

/-- A member that is null is left out, and a truth value stays one beside a number. A float, or null
in an array, is refused below a member. -/
theorem converted_roundtrip_sample :
    (obj [("a", .null), ("b", .arr [.bool true, .int 1])]).converted =
        .ok (some (.record [("b", .list [.bool true, .int 1])])) ∧
      Value.jsonOf (some (.record [("b", .list [.bool true, .int 1])])) =
        withoutNulls (obj [("a", .null), ("b", .arr [.bool true, .int 1])]) ∧
      (obj [("a", .null), ("b", .float .nan)]).converted = .error (.unsupported "float") ∧
      (obj [("a", .null), ("b", .float .nan)]).Unfit (.unsupported "float") ∧
      ∃ e, (obj [("a", .arr [.null])]).converted = .error e :=
  ⟨rfl, (converted_roundtrip.2 _).2.2 _ rfl, rfl, (converted_roundtrip.2 _).2.1 _ rfl,
    (converted_roundtrip.2 _).1.mpr
      (.inr ⟨[.null], .member List.mem_cons_self .here, List.mem_cons_self⟩)⟩

end Json
end EndpointRules
