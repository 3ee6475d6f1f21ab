import Mathlib.Data.List.Forall2

/-! Lists that are related item by item. -/

namespace EndpointRules.Related
variable {α β γ : Type} {R : α → β → Prop} {xs : List α} {ys : List β}

/-- Lists are related when they are equally long and what stands at the same index is related. -/
theorem forall₂_iff_getElem? :
    List.Forall₂ R xs ys ↔ xs.length = ys.length ∧
      ∀ (i : Nat) (x : α) (y : β), xs[i]? = some x → ys[i]? = some y → R x y := by
  rw [List.forall₂_iff_get]
  apply and_congr_right
  intro hlength
  constructor
  · intro h i x y hx hy
    obtain ⟨hi, rfl⟩ := List.getElem?_eq_some_iff.mp hx
    obtain ⟨hj, rfl⟩ := List.getElem?_eq_some_iff.mp hy
    exact h i hi hj
  · intro h i hi hj
    exact h i _ _ (List.getElem?_eq_getElem hi) (List.getElem?_eq_getElem hj)

/-- What stands at an index is related to something at the same index. -/
theorem exists_of_getElem? (h : List.Forall₂ R xs ys) {i : Nat} {y : β} (hy : ys[i]? = some y) :
    ∃ x, xs[i]? = some x ∧ R x y := by
  obtain ⟨hlength, hall⟩ := forall₂_iff_getElem?.mp h
  obtain ⟨hi, -⟩ := List.getElem?_eq_some_iff.mp hy
  have hx : xs[i]? = some xs[i] := List.getElem?_eq_getElem (hlength ▸ hi)
  exact ⟨_, hx, hall i _ y hx hy⟩

theorem exists_of_mem_right (h : List.Forall₂ R xs ys) {y : β} (hy : y ∈ ys) :
    ∃ x ∈ xs, R x y := by
  obtain ⟨i, hi⟩ := List.mem_iff_getElem?.mp hy
  obtain ⟨x, hx, hxy⟩ := exists_of_getElem? h hi
  exact ⟨x, List.mem_of_getElem? hx, hxy⟩

theorem exists_of_mem_left (h : List.Forall₂ R xs ys) {x : α} (hx : x ∈ xs) :
    ∃ y ∈ ys, R x y := exists_of_mem_right h.flip hx

/-- Lists have equal images when the images of related items are equal. -/
theorem map_eq_map {f : α → γ} {g : β → γ} (h : List.Forall₂ (fun x y => g y = f x) xs ys) :
    ys.map g = xs.map f := by
  rw [← List.forall₂_eq_eq_eq, List.forall₂_map_left_iff, List.forall₂_map_right_iff]
  exact h.flip

end EndpointRules.Related
