import EndpointRules.Json.Parser
import EndpointRules.Proofs.Json.Equality
import EndpointRules.Proofs.Outcome

/-! Data that are read from text. Whether a key that comes twice is merged or refused when an object
is closed, no object that is read has it twice. -/

namespace EndpointRules

namespace Fields
variable {α : Type} {fields : List (Text × α)}

theorem nodup_keys_put (key : Text) (x : α) (h : (keys fields).Nodup) :
    (keys (put key x fields)).Nodup := by
  rw [keys_put]
  split
  · exact h
  · next hnew =>
    refine List.nodup_append.mpr ⟨h, by simp, ?_⟩
    rintro name hname _ hkey rfl
    exact hnew (List.mem_singleton.mp hkey ▸ hname)

private theorem mem_put {key : Text} {x : α} {field : Text × α} (h : field ∈ put key x fields) :
    field = (key, x) ∨ field ∈ fields := by
  induction fields with
  | nil => exact .inl (List.mem_singleton.mp h)
  | cons entry rest ih =>
    rw [put] at h
    split at h
    · rcases List.mem_cons.mp h with hfirst | hlater
      · exact .inl hfirst
      · exact .inr (List.mem_cons_of_mem _ hlater)
    · rcases List.mem_cons.mp h with rfl | hlater
      · exact .inr List.mem_cons_self
      · exact (ih hlater).imp_right (List.mem_cons_of_mem _)

/-- Fields in which no key is found again have no key twice, and none that was seen before. -/
theorem nodup_of_repeated? {seen : List Text} (h : repeated? seen fields = none) :
    (keys fields).Nodup ∧ ∀ key ∈ keys fields, key ∉ seen := by
  induction fields generalizing seen with
  | nil => exact ⟨List.nodup_nil, by simp [keys]⟩
  | cons entry rest ih =>
    obtain ⟨name, x⟩ := entry
    rw [repeated?] at h
    split at h
    · cases h
    · next hfresh =>
      obtain ⟨hnodup, hunseen⟩ := ih h
      refine ⟨List.nodup_cons.mpr ⟨fun hmem => hunseen name hmem List.mem_cons_self, hnodup⟩, ?_⟩
      refine List.forall_mem_cons.mpr ⟨by simpa using hfresh, fun key hkey hseen => ?_⟩
      exact hunseen key hkey (List.mem_cons_of_mem _ hseen)

end Fields

namespace Json
open Outcome

/-- A datum without further data in it. -/
def isScalar : Json → Bool
  | .arr _ | .obj _ => false
  | _ => true

private theorem distinct_of_isScalar {d : Json} (h : d.isScalar = true) : d.Distinct := by
  cases d with
  | arr | obj => cases h
  | _ => constructor

namespace Parser
variable {ε : Type} {close : List (Text × Json) → Except ε (List (Text × Json))}

/-- Closing an object leaves no key that comes twice, and adds nothing to its members. -/
def ClosesDistinct (close : List (Text × Json) → Except ε (List (Text × Json))) : Prop :=
  ∀ fields closed, close fields = .ok closed →
    (Fields.keys closed).Nodup ∧ ∀ field ∈ closed, field ∈ fields

private theorem isScalar_of_number? {cs rest : List CodePoint} {d : Json}
    (h : number? cs = some (.ok d, rest)) : d.isScalar = true := by
  have hmagnitude {negative : Bool} {cs : List CodePoint}
      (h : magnitude? negative cs = some (.ok d, rest)) : d.isScalar = true := by
    unfold magnitude? at h
    obtain ⟨⟨whole, after⟩, -, h⟩ := Option.bind_eq_some_iff.mp h
    dsimp only at h
    split at h
    · obtain ⟨n, -, rfl⟩ := map_ok_iff.mp (Prod.mk.inj (Option.some.inj h)).1
      rfl
    · cases h
      rfl
  unfold number? at h
  split at h
  · exact hmagnitude h
  · exact hmagnitude h

theorem isScalar_of_scalar? {cs rest : List CodePoint} {d : Json}
    (h : scalar? cs = some (.ok d, rest)) : d.isScalar = true := by
  rw [scalar?, Option.or_eq_some_iff] at h
  obtain hconstant | ⟨-, hnumber⟩ := h
  · obtain ⟨⟨word, constant⟩, hmem, hword⟩ := List.exists_of_findSome?_eq_some hconstant
    obtain ⟨after, -, hd⟩ := Option.map_eq_some_iff.mp hword
    cases hd
    have hall : ∀ entry ∈ constants, entry.2.isScalar = true := by decide
    exact hall _ hmem
  · exact isScalar_of_number? hnumber

/-- What is read with some fuel has no key twice: a datum, the items of an array, the members of an
object. -/
structure ReadsDistinct (close : List (Text × Json) → Except ε (List (Text × Json)))
    (fuel : Nat) : Prop where
  datum {cs rest : List CodePoint} {d : Json} : datum close fuel cs = .ok (d, rest) → d.Distinct
  items {cs rest : List CodePoint} {ds : List Json} :
    items close fuel cs = .ok (ds, rest) → ∀ d ∈ ds, d.Distinct
  members {cs rest : List CodePoint} {fields : List (Text × Json)} :
    members close fuel cs = .ok (fields, rest) → ∀ field ∈ fields, field.2.Distinct

namespace ReadsDistinct
variable {fuel : Nat} {cs rest after : List CodePoint}

private theorem distinct_closed (hclose : ClosesDistinct close) (fields : List (Text × Json))
    {d : Json} (hall : ∀ field ∈ fields, field.2.Distinct)
    (h : (do return (obj (← (close fields).mapError Failure.refused), after)) =
      Except.ok (d, rest)) : d.Distinct := by
  obtain ⟨closed, hclosed, h⟩ := bind_ok_iff.mp h
  cases h
  obtain ⟨hkeys, hsub⟩ := hclose fields closed (mapError_ok_iff.mp hclosed)
  exact .obj hkeys fun field hfield => hall field (hsub field hfield)

private theorem datum_succ (hr : ReadsDistinct close fuel) (hclose : ClosesDistinct close)
    {d : Json}
    (h : Parser.datum close (fuel + 1) cs = .ok (d, rest)) : d.Distinct := by
  unfold Parser.datum at h
  split at h
  · obtain ⟨⟨s, after⟩, -, h⟩ := map_ok_iff.mp (mapError_ok_iff.mp h)
    cases h
    exact .str s
  · split at h
    · cases h
      exact .arr (by simp)
    · obtain ⟨⟨ds, after⟩, hds, h⟩ := map_ok_iff.mp h
      cases h
      exact .arr (hr.items hds)
  · dsimp only at h
    split at h
    · exact distinct_closed hclose [] (by simp) h
    · obtain ⟨⟨fields, after⟩, hfields, h⟩ := bind_ok_iff.mp h
      exact distinct_closed hclose fields (hr.members hfields) h
  · split at h
    · next hscalar =>
      cases h
      exact distinct_of_isScalar (isScalar_of_scalar? hscalar)
    · cases h
    · cases h

private theorem items_succ (hr : ReadsDistinct close fuel) {ds : List Json}
    (h : Parser.items close (fuel + 1) cs = .ok (ds, rest)) : ∀ d ∈ ds, d.Distinct := by
  unfold Parser.items at h
  obtain ⟨⟨item, after⟩, hitem, h⟩ := bind_ok_iff.mp h
  dsimp only at h
  split at h
  · cases h
    simpa using hr.datum hitem
  · obtain ⟨⟨others, after⟩, hothers, h⟩ := bind_ok_iff.mp h
    cases h
    exact List.forall_mem_cons.mpr ⟨hr.datum hitem, hr.items hothers⟩
  · cases h

private theorem members_succ (hr : ReadsDistinct close fuel) {fields : List (Text × Json)}
    (h : Parser.members close (fuel + 1) cs = .ok (fields, rest)) :
    ∀ field ∈ fields, field.2.Distinct := by
  unfold Parser.members at h
  split at h
  · obtain ⟨⟨key, after⟩, -, h⟩ := bind_ok_iff.mp h
    dsimp only at h
    split at h
    · obtain ⟨⟨item, after⟩, hitem, h⟩ := bind_ok_iff.mp h
      dsimp only at h
      split at h
      · cases h
        simpa using hr.datum hitem
      · obtain ⟨⟨others, after⟩, hothers, h⟩ := bind_ok_iff.mp h
        cases h
        exact List.forall_mem_cons.mpr ⟨hr.datum hitem, hr.members hothers⟩
      · cases h
    · cases h
  · cases h

end ReadsDistinct

private theorem readsDistinct (hclose : ClosesDistinct close) (fuel : Nat) :
    ReadsDistinct close fuel := by
  induction fuel with
  | zero => exact ⟨nofun, nofun, nofun⟩
  | succ fuel ih => exact ⟨ih.datum_succ hclose, ih.items_succ, ih.members_succ⟩

/-- A text that is read holds data without a key that comes twice in an object. -/
private theorem distinct_document (hclose : ClosesDistinct close) {text : List CodePoint} {d : Json}
    (h : document close text = .ok d) : d.Distinct := by
  unfold document at h
  split at h
  · cases h
  · obtain ⟨⟨result, rest⟩, hresult, h⟩ := bind_ok_iff.mp h
    dsimp only at h
    split at h
    · cases h
      exact (readsDistinct hclose _).datum hresult
    · cases h

end Parser

/-- Of members with one key the last stays, in the place of the first. -/
private theorem closesDistinct_mergeRepeated : Parser.ClosesDistinct mergeRepeated := by
  intro fields closed h
  cases h
  have hput : ∀ done : List (Text × Json), (Fields.keys done).Nodup →
      (Fields.keys (Fields.putAll done fields)).Nodup ∧
        ∀ field ∈ Fields.putAll done fields, field ∈ done ∨ field ∈ fields := by
    induction fields with
    | nil => exact fun done hdone => ⟨hdone, fun field hfield => .inl hfield⟩
    | cons entry rest ih =>
      intro done hdone
      obtain ⟨hkeys, hsub⟩ := ih _ (Fields.nodup_keys_put entry.1 entry.2 hdone)
      refine ⟨hkeys, fun field hfield => ?_⟩
      rcases hsub field hfield with hearlier | hlater
      · rcases Fields.mem_put hearlier with rfl | hold
        · exact .inr List.mem_cons_self
        · exact .inl hold
      · exact .inr (List.mem_cons_of_mem _ hlater)
  obtain ⟨hkeys, hsub⟩ := hput [] List.nodup_nil
  exact ⟨hkeys, fun field hfield => (hsub field hfield).resolve_left List.not_mem_nil⟩

private theorem closesDistinct_refuseRepeated : Parser.ClosesDistinct refuseRepeated := by
  intro fields closed h
  unfold refuseRepeated at h
  split at h
  · cases h
  · next hnone =>
    cases h
    exact ⟨(Fields.nodup_of_repeated? hnone).1, fun field hfield => hfield⟩

/-- What is read has no key twice, whether its last member is kept or it is refused. -/
theorem distinct_parse {text : List CodePoint} {d : Json} (h : parse text = .ok d) : d.Distinct :=
  Parser.distinct_document closesDistinct_mergeRepeated h

theorem distinct_parseDistinct {text : List CodePoint} {d : Json} (h : parseDistinct text = .ok d) :
    d.Distinct :=
  Parser.distinct_document closesDistinct_refuseRepeated h

end Json
end EndpointRules
