import EndpointRules.Proofs.Binding
import EndpointRules.Proofs.Cache.Canonical
import EndpointRules.Proofs.Related

/-! The keys of bound frames. All frames that one resolver binds have the same names in the same
order, so putting the names in order loses nothing, and their values have no records to put in
order. -/

namespace EndpointRules

namespace Fields
variable {α : Type}

/-- Entries with the same keys in the same order can be told apart after they have been sorted. -/
private theorem sorted_inj {fields others : List (Text × α)} (hkeys : keys fields = keys others)
    (h : sorted fields = sorted others) : fields = others := by
  have hpair : List.Forall₂ (fun a b : Text × α => a.1 = b.1) fields others := by
    rwa [keys, keys, ← List.forall₂_eq_eq_eq, List.forall₂_map_left_iff,
      List.forall₂_map_right_iff] at hkeys
  obtain ⟨hlength, hzip⟩ := List.forall₂_iff_zip.mp hpair
  have hfst : (fields.zip others).map Prod.fst = fields := List.map_fst_zip hlength.le
  have hsnd : (fields.zip others).map Prod.snd = others := List.map_snd_zip hlength.ge
  -- Sorting the pairs of entries by their common key sorts both lists.
  let byKey (p q : (Text × α) × Text × α) : Prop := p.1.1 ≤ q.1.1
  have : DecidableRel byKey := fun p q => inferInstanceAs (Decidable (p.1.1 ≤ q.1.1))
  have hfirst : ((fields.zip others).insertionSort byKey).map Prod.fst = sorted fields := by
    rw [List.map_insertionSort byKey (fun a b => a.1 ≤ b.1) _ _ fun _ _ _ _ => Iff.rfl, hfst,
      sorted_eq_insertionSort]
  have hsecond : ((fields.zip others).insertionSort byKey).map Prod.snd = sorted others := by
    rw [List.map_insertionSort byKey (fun a b => a.1 ≤ b.1) _ _ fun p hp q hq => ?_, hsnd,
      sorted_eq_insertionSort]
    rw [← hzip hp, ← hzip hq]
  have hequal : ∀ p ∈ fields.zip others, p.1 = p.2 := by
    have hmaps := hfirst.trans (h.trans hsecond.symm)
    exact fun p hp => List.map_inj_left.mp hmaps p (List.mem_insertionSort byKey |>.mpr hp)
  rw [← hfst, List.map_inj_left.mpr hequal, hsnd]

end Fields

namespace Value

/-- Parameters hold no records. -/
theorem distinct_of_accepts {type : ParameterType} {v : Value} (h : type.accepts v = true) :
    v.Distinct := by
  cases v with
  | string s => exact .string s
  | bool b => exact .bool b
  | int n => exact .int n
  | list items =>
    cases type with
    | stringArray =>
      refine .list fun v hv => ?_
      have htext := List.all_eq_true.mp h v hv
      cases v with
      | string s => exact .string s
      | _ => cases htext
    | _ => cases h
  | record fields => cases type <;> cases h

/-- Values that are the same are equal when a parameter accepts them. -/
private theorem Same.eq_of_accepts {type : ParameterType} {v w : Value} (h : v.Same w)
    (hv : type.accepts v = true) : v = w := by
  cases h with
  | string | bool | int => rfl
  | list hitems =>
    cases type with
    | stringArray =>
      have hboth := (List.forall₂_and_left _ _).mpr ⟨List.all_eq_true.mp hv, hitems⟩
      rw [list.injEq, ← List.forall₂_eq_eq_eq]
      refine hboth.imp fun item other hitem => ?_
      obtain ⟨htext, hsame⟩ := hitem
      cases hsame with
      | string => rfl
      | _ => cases htext
    | _ => cases hv
  | record => cases type <;> cases hv

end Value

/-- What a parameter may be bound to is told apart by its key. -/
private theorem Parameter.eq_of_keyOf {p : Parameter} {v w : Option Value}
    (hv : p.staticType.Admits v)
    (hw : p.staticType.Admits w) (h : Value.keyOf v = Value.keyOf w) : v = w := by
  have haccepts {x : Option Value} (hx : p.staticType.Admits x) :
      ∀ u, x = some u → p.type.accepts u = true :=
    fun u hu => ParameterType.admits_staticType p.type u ▸ hx u hu
  have hdistinct {x : Option Value} (hx : p.staticType.Admits x) :
      ∀ u, x = some u → u.Distinct :=
    fun u hu => Value.distinct_of_accepts (haccepts hx u hu)
  cases (Frame.keyOf_eq_iff (hdistinct hv) (hdistinct hw)).mp h with
  | none => rfl
  | some hsame => rw [hsame.eq_of_accepts (haccepts hv _ rfl)]

namespace Frame
variable {parameters : List Parameter} {frame : Frame}

/-- One entry for each parameter, in order, with a value of its static type or none. -/
def Typed (parameters : List Parameter) (frame : Frame) : Prop :=
  List.Forall₂ (fun p entry => entry.1 = p.name ∧ p.staticType.Admits entry.2) parameters frame

theorem typed_of_bindAll {arguments builtIns : List (Text × Argument)}
    (hd : ∀ p ∈ parameters, p.DefaultFits)
    (h : (bindAll arguments builtIns parameters).outcome = .ok frame) :
    frame.Typed parameters := by
  have hentries := bindAll_ok_iff.mp h
  clear h
  induction hentries with
  | nil => exact .nil
  | @cons p entry rest others hentry _ ih =>
    obtain ⟨hfirst, hrest⟩ := List.forall_mem_cons.mp hd
    exact .cons ⟨hentry.1, Parameter.admits_of_bind hfirst hentry.2⟩ (ih hrest)

theorem Typed.keys_eq (h : frame.Typed parameters) :
    Fields.keys frame = parameters.map Parameter.name :=
  Related.map_eq_map (h.imp fun _ _ hentry => hentry.1)

/-- Frames for the same parameters have one key only if they are one frame. -/
theorem Typed.eq_of_key {other : Frame} (h : frame.Typed parameters)
    (ho : other.Typed parameters) (hkey : frame.key = other.key) : frame = other := by
  have hkeys : Fields.keys frame = Fields.keys other := h.keys_eq.trans ho.keys_eq.symm
  have hmaps := Fields.sorted_inj (by rw [Fields.keys_map, Fields.keys_map, hkeys])
    (Key.ofEntries_inj.mp hkey)
  clear hkey hkeys
  induction h generalizing other with
  | nil => cases ho with | nil => rfl
  | @cons p entry rest others hentry _ ih =>
    cases ho with
    | @cons _ entry' _ others' hentry' hothers' =>
      obtain ⟨hfirst, hrest⟩ := List.cons.inj hmaps
      obtain ⟨name, v⟩ := entry
      obtain ⟨name', w⟩ := entry'
      obtain ⟨hname, hkeyOf⟩ := Prod.mk.inj hfirst
      have hvalue : v = w := Parameter.eq_of_keyOf hentry.2 hentry'.2 hkeyOf
      rw [ih hothers' hrest, hname, hvalue]

end Frame
end EndpointRules
