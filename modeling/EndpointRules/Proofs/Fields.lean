import EndpointRules.Fields
import Mathlib.Data.List.Nodup
import Mathlib.Data.List.Perm.Subperm
import Mathlib.Data.List.Sort

/-! Entries as mappings. Without a key that comes twice, what is found for each key says everything
about entries but their order, and sorted entries have no other order. -/

namespace EndpointRules.Fields
variable {α β : Type} {fields others : List (Text × α)} {entry : Text × α} {key : Text}
  {x : α}

theorem mem_of_get? (h : get? key fields = some x) : (key, x) ∈ fields := by
  induction fields with
  | nil => cases h
  | cons entry rest ih =>
    obtain ⟨name, y⟩ := entry
    rw [get?] at h
    split at h
    · next hname =>
      cases h
      rw [hname]
      exact List.mem_cons_self
    · exact List.mem_cons_of_mem _ (ih h)

/-- Without a key that comes twice, each entry is found by its key. -/
theorem get?_eq_some_iff (hn : (keys fields).Nodup) :
    get? key fields = some x ↔ (key, x) ∈ fields := by
  refine ⟨mem_of_get?, fun h => ?_⟩
  induction fields with
  | nil => cases h
  | cons entry rest ih =>
    obtain ⟨name, y⟩ := entry
    obtain ⟨hname, hrest⟩ := List.nodup_cons.mp hn
    rw [get?]
    rcases List.mem_cons.mp h with hfirst | hlater
    · cases hfirst
      exact if_pos rfl
    · rw [if_neg, ih hrest hlater]
      rintro rfl
      exact hname (List.mem_map.mpr ⟨_, hlater, rfl⟩)

theorem get?_map (f : α → β) (key : Text) (fields : List (Text × α)) :
    get? key (fields.map fun (name, x) => (name, f x)) = (get? key fields).map f := by
  induction fields with
  | nil => rfl
  | cons entry rest ih =>
    obtain ⟨name, x⟩ := entry
    by_cases h : name = key <;> simp [get?, h, ih]

theorem keys_map (f : α → β) (fields : List (Text × α)) :
    keys (fields.map fun (name, x) => (name, f x)) = keys fields := by
  rw [keys, keys, List.map_map]
  rfl

/-- Without a key that comes twice, entries may be found in any order. -/
theorem get?_of_perm (hn : (keys fields).Nodup) (h : fields.Perm others) (key : Text) :
    get? key fields = get? key others := by
  have ho : (keys others).Nodup := (h.map _).nodup_iff.mp hn
  ext x
  rw [get?_eq_some_iff hn, get?_eq_some_iff ho, h.mem_iff]

/-- Fields that give every key the same are the same fields in some order. -/
private theorem perm_of_get? (hf : (keys fields).Nodup) (ho : (keys others).Nodup)
    (h : ∀ key, get? key fields = get? key others) : fields.Perm others := by
  rw [List.perm_ext_iff_of_nodup (List.Nodup.of_map Prod.fst hf) (List.Nodup.of_map Prod.fst ho)]
  rintro ⟨key, x⟩
  rw [← get?_eq_some_iff hf, ← get?_eq_some_iff ho, h key]

/-- Entries are sorted as the library's lists are. -/
theorem sorted_eq_insertionSort (fields : List (Text × α)) :
    sorted fields = fields.insertionSort fun a b => a.1 ≤ b.1 := by
  have hinsert (entry : Text × α) (fields : List (Text × α)) :
      insertSorted entry fields = fields.orderedInsert (fun a b => a.1 ≤ b.1) entry := by
    induction fields with
    | nil => rfl
    | cons first rest ih => rw [insertSorted, List.orderedInsert_cons, ih]
  induction fields with
  | nil => rfl
  | cons entry rest ih =>
    rw [sorted, List.foldr_cons, hinsert, ← sorted, ih, List.insertionSort_cons]

private theorem sorted_perm (fields : List (Text × α)) : (sorted fields).Perm fields :=
  sorted_eq_insertionSort fields ▸ List.perm_insertionSort _ fields

private theorem pairwise_sorted (fields : List (Text × α)) :
    (sorted fields).Pairwise fun a b => a.1 ≤ b.1 := by
  have : Std.Total fun a b : Text × α => a.1 ≤ b.1 := ⟨fun a b => List.le_total a.1.codes b.1.codes⟩
  have : IsTrans (Text × α) fun a b => a.1 ≤ b.1 := ⟨fun _ _ _ => List.le_trans⟩
  exact sorted_eq_insertionSort fields ▸ List.pairwise_insertionSort _ fields

/-- Sorted fields are equal exactly when the fields give every key the same. -/
private theorem sorted_eq_iff (hf : (keys fields).Nodup) (ho : (keys others).Nodup) :
    sorted fields = sorted others ↔ ∀ key, get? key fields = get? key others := by
  constructor
  · intro h
    have hperm : fields.Perm others :=
      (sorted_perm fields).symm.trans ((List.Perm.of_eq h).trans (sorted_perm others))
    exact get?_of_perm hf hperm
  · intro h
    have hperm : (sorted fields).Perm (sorted others) :=
      (sorted_perm fields).trans ((perm_of_get? hf ho h).trans (sorted_perm others).symm)
    refine hperm.eq_of_pairwise (fun a b ha hb hab hba => ?_) (pairwise_sorted fields)
      (pairwise_sorted others)
    have hb : b ∈ fields := (sorted_perm fields).mem_iff.mp (hperm.mem_iff.mpr hb)
    exact List.inj_on_of_nodup_map hf ((sorted_perm fields).mem_iff.mp ha) hb
      (Text.codes_inj.mp (List.le_antisymm hab hba))

/-- Sorted images of fields are equal exactly when the fields have the same keys, and data with one
image for each of them. -/
theorem sorted_map_eq_iff (f : α → β) (hf : (keys fields).Nodup) (ho : (keys others).Nodup) :
    sorted (fields.map fun (name, x) => (name, f x)) =
        sorted (others.map fun (name, x) => (name, f x)) ↔
      (∀ key, hasKey key fields = hasKey key others) ∧
      ∀ key x y, get? key fields = some x → get? key others = some y → f x = f y := by
  rw [sorted_eq_iff (by rwa [keys_map]) (by rwa [keys_map]), ← forall_and]
  refine forall_congr' fun key => ?_
  rw [get?_map, get?_map, hasKey, hasKey]
  cases get? key fields <;> cases get? key others <;> simp

end EndpointRules.Fields
