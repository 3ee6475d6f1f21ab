import EndpointRules.Proofs.Json.Reading
import Mathlib.Data.List.Duplicate

/-! Objects that are closed while a text is read. Closing them can wait until a text has been read
with all members of its objects: inner objects are closed first, and nothing else depends on what
closing gives. So a text that can be read is refused for a key that an object in it has twice,
wherever the object is, and it is read as it stands if there is no such key. -/

namespace EndpointRules

namespace Fields
variable {α : Type} {fields entries : List (Text × α)}

private theorem put_of_notMem {key : Text} {x : α} (h : key ∉ keys fields) :
    put key x fields = fields ++ [(key, x)] := by
  induction fields with
  | nil => rfl
  | cons entry rest ih =>
    obtain ⟨hne, hrest⟩ := not_or.mp (List.mem_cons.not.mp h)
    rw [put, if_neg (Ne.symm hne), ih hrest, List.cons_append]

/-- Entries with new keys are written in their order behind those that are there. -/
private theorem putAll_of_nodup (h : (keys (fields ++ entries)).Nodup) :
    putAll fields entries = fields ++ entries := by
  induction entries generalizing fields with
  | nil => exact (List.append_nil fields).symm
  | cons entry rest ih =>
    have hsplit : keys (fields ++ entry :: rest) = keys fields ++ entry.1 :: keys rest := by
      simp [keys]
    have hnew : entry.1 ∉ keys fields := fun hmem =>
      (List.nodup_append.mp (hsplit ▸ h)).2.2 _ hmem _ List.mem_cons_self rfl
    have hput : putAll fields (entry :: rest) = putAll (put entry.1 entry.2 fields) rest := rfl
    rw [hput, put_of_notMem hnew, ih, List.append_assoc, List.singleton_append]
    rw [List.append_assoc, List.singleton_append]
    exact h

end Fields

namespace Json
open Outcome

/-- Leaves all members of an object as they stand in the text. -/
def keepMembers (fields : List (Text × Json)) : Except Empty (List (Text × Json)) := .ok fields

/-- Reads a text with all members of its objects, in the order of the text. -/
def parseWhole (text : List CodePoint) : Except (Failure Empty) Json :=
  Parser.document keepMembers text

variable {ε α : Type}

section Closed
variable (close : List (Text × Json) → Except ε (List (Text × Json)))

mutual
/-- Closes each object in a datum, in the order in which their ends are met. -/
def closed : Json → Except ε Json
  | .arr items => (closedItems items).map .arr
  | .obj fields => do return .obj (← close (← closedMembers fields))
  | .null => .ok .null
  | .bool b => .ok (.bool b)
  | .int n => .ok (.int n)
  | .float x => .ok (.float x)
  | .str s => .ok (.str s)

def closedItems : List Json → Except ε (List Json)
  | [] => .ok []
  | item :: rest => do return (← closed item) :: (← closedItems rest)

def closedMembers : List (Text × Json) → Except ε (List (Text × Json))
  | [] => .ok []
  | (key, item) :: rest => do return (key, ← closed item) :: (← closedMembers rest)
end

end Closed

private theorem closed_of_isScalar {close : List (Text × Json) → Except ε (List (Text × Json))}
    {d : Json} (h : d.isScalar = true) : closed close d = .ok d := by
  cases d with
  | arr | obj => cases h
  | _ => rfl

section Leaves
variable {close : List (Text × Json) → Except ε (List (Text × Json))} {items : List Json}
  {fields : List (Text × Json)} {d : Json}

private theorem closedItems_of_closed (h : ∀ item ∈ items, closed close item = .ok item) :
    closedItems close items = .ok items := by
  induction items with
  | nil => rfl
  | cons item rest ih =>
    obtain ⟨hitem, hrest⟩ := List.forall_mem_cons.mp h
    rw [closedItems, hitem, ih hrest]
    rfl

private theorem closedMembers_of_closed (h : ∀ field ∈ fields, closed close field.2 = .ok field.2) :
    closedMembers close fields = .ok fields := by
  induction fields with
  | nil => rfl
  | cons field rest ih =>
    obtain ⟨hfield, hrest⟩ := List.forall_mem_cons.mp h
    rw [closedMembers, hfield, ih hrest]
    rfl

/-- Closing leaves a datum as it is if it does so to objects with distinct keys, and no object in
the datum has a key twice. -/
private theorem closed_of_distinct
    (hclose : ∀ fields, (Fields.keys fields).Nodup → close fields = .ok fields)
    (hd : d.Distinct) : closed close d = .ok d := by
  induction hd with
  | null | bool | int | float | str => rfl
  | arr _ ih =>
    rw [closed, closedItems_of_closed ih]
    rfl
  | obj hnodup _ ih =>
    rw [closed, closedMembers_of_closed ih]
    simp only [bind, Except.bind, hclose _ hnodup]
    rfl

end Leaves

namespace Parser
variable {close : List (Text × Json) → Except ε (List (Text × Json))} {fuel : ℕ}
  {cs rest : List CodePoint}

/-- The end of reading a part that has been closed, with the text after it. -/
def reads (part : Except ε α) (rest : List CodePoint) : Except (Failure ε) (α × List CodePoint) :=
  (part.map (·, rest)).mapError .refused

private theorem reads_ok (a : α) (rest : List CodePoint) :
    reads (.ok a : Except ε α) rest = .ok (a, rest) := rfl

private theorem ok_bind {φ β : Type} (a : α) (f : α → Except φ β) : (Except.ok a >>= f) = f a := rfl

private theorem mapError_ok {φ ψ : Type} (a : α) (f : φ → ψ) :
    (Except.ok a).mapError f = .ok a := rfl

/-- With some fuel, what can be read with all members can be read and closed at once, and that is
the same as closing it afterwards. -/
structure ClosesAfter (close : List (Text × Json) → Except ε (List (Text × Json)))
    (fuel : ℕ) : Prop where
  datum {cs rest : List CodePoint} {d : Json} :
    datum keepMembers fuel cs = .ok (d, rest) → datum close fuel cs = reads (closed close d) rest
  items {cs rest : List CodePoint} {ds : List Json} :
    items keepMembers fuel cs = .ok (ds, rest) →
      items close fuel cs = reads (closedItems close ds) rest
  members {cs rest : List CodePoint} {fields : List (Text × Json)} :
    members keepMembers fuel cs = .ok (fields, rest) →
      members close fuel cs = reads (closedMembers close fields) rest

namespace ClosesAfter

private theorem items_succ (hr : ClosesAfter close fuel) {ds : List Json}
    (h : Parser.items keepMembers (fuel + 1) cs = .ok (ds, rest)) :
    Parser.items close (fuel + 1) cs = reads (closedItems close ds) rest := by
  unfold Parser.items at h ⊢
  obtain ⟨⟨item, after⟩, hitem, h⟩ := bind_ok_iff.mp h
  rw [hr.datum hitem]
  dsimp only at h
  split at h
  · next hend =>
    cases h
    rw [closedItems]
    cases closed close item with
    | error e => rfl
    | ok d =>
      simp only [reads_ok, ok_bind, hend]
      rfl
  · next hcomma =>
    obtain ⟨⟨others, later⟩, hothers, h⟩ := bind_ok_iff.mp h
    cases h
    rw [closedItems]
    cases closed close item with
    | error e => rfl
    | ok d =>
      simp only [reads_ok, ok_bind, hcomma, hr.items hothers]
      cases closedItems close others <;> rfl
  · cases h

private theorem members_succ (hr : ClosesAfter close fuel) {fields : List (Text × Json)}
    (h : Parser.members keepMembers (fuel + 1) cs = .ok (fields, rest)) :
    Parser.members close (fuel + 1) cs = reads (closedMembers close fields) rest := by
  unfold Parser.members at h ⊢
  split at h
  · obtain ⟨⟨key, after⟩, hkey, h⟩ := bind_ok_iff.mp h
    dsimp only at h
    split at h
    · next hcolon =>
      obtain ⟨⟨item, after⟩, hitem, h⟩ := bind_ok_iff.mp h
      dsimp only at h
      simp only [mapError_ok_iff.mp hkey, mapError_ok, ok_bind, hcolon, hr.datum hitem]
      split at h
      · next hend =>
        cases h
        rw [closedMembers]
        cases closed close item with
        | error e => rfl
        | ok d =>
          simp only [reads_ok, ok_bind, hend]
          rfl
      · next hcomma =>
        obtain ⟨⟨others, later⟩, hothers, h⟩ := bind_ok_iff.mp h
        cases h
        rw [closedMembers]
        cases closed close item with
        | error e => rfl
        | ok d =>
          simp only [reads_ok, ok_bind, hcomma, hr.members hothers]
          cases closedMembers close others <;> rfl
      · cases h
    · cases h
  · cases h

private theorem datum_succ (hr : ClosesAfter close fuel) {d : Json}
    (h : Parser.datum keepMembers (fuel + 1) cs = .ok (d, rest)) :
    Parser.datum close (fuel + 1) cs = reads (closed close d) rest := by
  unfold Parser.datum at h ⊢
  split at h
  · obtain ⟨⟨s, after⟩, hs, h⟩ := map_ok_iff.mp (mapError_ok_iff.mp h)
    cases h
    simp only [hs]
    rfl
  · split at h
    · cases h
      rfl
    · obtain ⟨⟨ds, after⟩, hds, h⟩ := map_ok_iff.mp h
      cases h
      simp only [hr.items hds, closed]
      cases closedItems close ds <;> rfl
  · dsimp only at h ⊢
    split at h
    · cases h
      simp only [closed, closedMembers, ok_bind]
      cases close [] <;> rfl
    · obtain ⟨⟨fields, after⟩, hfields, h⟩ := bind_ok_iff.mp h
      cases h
      simp only [hr.members hfields, closed]
      cases closedMembers close fields with
      | error e => rfl
      | ok inner =>
        simp only [reads_ok, ok_bind]
        cases close inner <;> rfl
  · split at h
    · next hscalar =>
      cases h
      rw [closed_of_isScalar (isScalar_of_scalar? hscalar)]
      rfl
    · cases h
    · cases h

end ClosesAfter

private theorem closesAfter (close : List (Text × Json) → Except ε (List (Text × Json)))
    (fuel : ℕ) :
    ClosesAfter close fuel := by
  induction fuel with
  | zero => exact ⟨nofun, nofun, nofun⟩
  | succ fuel ih => exact ⟨ih.datum_succ, ih.items_succ, ih.members_succ⟩

/-- With some fuel, what can be read with objects closed somehow can be read with all members. -/
structure ReadsWhole (close : List (Text × Json) → Except ε (List (Text × Json)))
    (fuel : ℕ) : Prop where
  datum {cs rest : List CodePoint} {x : Json} :
    datum close fuel cs = .ok (x, rest) → ∃ d, datum keepMembers fuel cs = .ok (d, rest)
  items {cs rest : List CodePoint} {xs : List Json} :
    items close fuel cs = .ok (xs, rest) → ∃ ds, items keepMembers fuel cs = .ok (ds, rest)
  members {cs rest : List CodePoint} {fields : List (Text × Json)} :
    members close fuel cs = .ok (fields, rest) →
      ∃ whole, members keepMembers fuel cs = .ok (whole, rest)

namespace ReadsWhole

private theorem items_succ (hr : ReadsWhole close fuel) {xs : List Json}
    (h : Parser.items close (fuel + 1) cs = .ok (xs, rest)) :
    ∃ ds, Parser.items keepMembers (fuel + 1) cs = .ok (ds, rest) := by
  unfold Parser.items at h ⊢
  obtain ⟨⟨item, after⟩, hitem, h⟩ := bind_ok_iff.mp h
  obtain ⟨d, hd⟩ := hr.datum hitem
  simp only [hd, ok_bind]
  dsimp only at h
  split at h
  · cases h
    exact ⟨[d], rfl⟩
  · obtain ⟨⟨others, later⟩, hothers, h⟩ := bind_ok_iff.mp h
    obtain ⟨ds, hds⟩ := hr.items hothers
    cases h
    simp only [hds]
    exact ⟨d :: ds, rfl⟩
  · cases h

private theorem members_succ (hr : ReadsWhole close fuel) {fields : List (Text × Json)}
    (h : Parser.members close (fuel + 1) cs = .ok (fields, rest)) :
    ∃ whole, Parser.members keepMembers (fuel + 1) cs = .ok (whole, rest) := by
  unfold Parser.members at h ⊢
  split at h
  · obtain ⟨⟨key, after⟩, hkey, h⟩ := bind_ok_iff.mp h
    dsimp only at h
    split at h
    · next hcolon =>
      obtain ⟨⟨item, after⟩, hitem, h⟩ := bind_ok_iff.mp h
      obtain ⟨d, hd⟩ := hr.datum hitem
      simp only [mapError_ok_iff.mp hkey, mapError_ok, ok_bind, hcolon, hd]
      dsimp only at h
      split at h
      · cases h
        exact ⟨[(key, d)], rfl⟩
      · obtain ⟨⟨others, later⟩, hothers, h⟩ := bind_ok_iff.mp h
        obtain ⟨whole, hwhole⟩ := hr.members hothers
        cases h
        simp only [hwhole]
        exact ⟨(key, d) :: whole, rfl⟩
      · cases h
    · cases h
  · cases h

private theorem datum_succ (hr : ReadsWhole close fuel) {x : Json}
    (h : Parser.datum close (fuel + 1) cs = .ok (x, rest)) :
    ∃ d, Parser.datum keepMembers (fuel + 1) cs = .ok (d, rest) := by
  unfold Parser.datum at h ⊢
  split at h
  · obtain ⟨⟨s, after⟩, hs, h⟩ := map_ok_iff.mp (mapError_ok_iff.mp h)
    cases h
    simp only [hs]
    exact ⟨.str s, rfl⟩
  · split at h
    · cases h
      exact ⟨.arr [], rfl⟩
    · obtain ⟨⟨xs, after⟩, hxs, h⟩ := map_ok_iff.mp h
      obtain ⟨ds, hds⟩ := hr.items hxs
      cases h
      simp only [hds]
      exact ⟨.arr ds, rfl⟩
  · dsimp only at h ⊢
    split at h
    · simp only [ok_bind] at h
      obtain ⟨closed, -, h⟩ := bind_ok_iff.mp h
      cases h
      exact ⟨.obj [], rfl⟩
    · obtain ⟨⟨fields, after⟩, hfields, h⟩ := bind_ok_iff.mp h
      obtain ⟨whole, hwhole⟩ := hr.members hfields
      obtain ⟨closed, -, h⟩ := bind_ok_iff.mp h
      cases h
      simp only [hwhole]
      exact ⟨.obj whole, rfl⟩
  · split at h
    · next hscalar =>
      cases h
      exact ⟨x, rfl⟩
    · cases h
    · cases h

end ReadsWhole

private theorem readsWhole (close : List (Text × Json) → Except ε (List (Text × Json))) (fuel : ℕ) :
    ReadsWhole close fuel := by
  induction fuel with
  | zero => exact ⟨nofun, nofun, nofun⟩
  | succ fuel ih => exact ⟨ih.datum_succ, ih.items_succ, ih.members_succ⟩

/-- A text that can be read with objects closed somehow can be read with all members. -/
private theorem exists_document_whole {text : List CodePoint} {x : Json}
    (h : document close text = .ok x) :
    ∃ d, document keepMembers text = .ok d := by
  unfold document at h ⊢
  split at h
  · cases h
  · obtain ⟨⟨result, rest⟩, hresult, h⟩ := bind_ok_iff.mp h
    obtain ⟨d, hd⟩ := (readsWhole close _).datum hresult
    simp only [hd, ok_bind]
    dsimp only at h
    split at h
    · exact ⟨d, rfl⟩
    · cases h

/-- A text that can be read with all members is read with closing as its datum is closed. -/
private theorem document_eq_closed {text : List CodePoint} {d : Json}
    (h : parseWhole text = .ok d) :
    document close text = (closed close d).mapError .refused := by
  have hwhole : document keepMembers text = .ok d := h
  unfold document at hwhole ⊢
  split at hwhole
  · cases hwhole
  · obtain ⟨⟨result, rest⟩, hresult, hwhole⟩ := bind_ok_iff.mp hwhole
    dsimp only at hwhole
    rw [(closesAfter close _).datum hresult]
    split at hwhole
    · next hend =>
      cases hwhole
      cases closed close d with
      | error e => rfl
      | ok inner =>
        simp only [reads_ok, ok_bind, hend]
        rfl
    · cases hwhole

end Parser

/-- Some object in a datum, at any depth, has two members of one name. -/
inductive Repeats (key : Text) : Json → Prop
  | here {fields : List (Text × Json)} :
      List.Duplicate key (Fields.keys fields) → Repeats key (.obj fields)
  | item {items : List Json} {d : Json} : d ∈ items → Repeats key d → Repeats key (.arr items)
  | member {fields : List (Text × Json)} {field : Text × Json} :
      field ∈ fields → Repeats key field.2 → Repeats key (.obj fields)

theorem Distinct.not_repeats {d : Json} {key : Text} (hd : d.Distinct) : ¬ d.Repeats key := by
  intro h
  induction h with
  | here hkey =>
    cases hd with
    | obj hnodup _ => exact List.nodup_iff_forall_not_duplicate.mp hnodup key hkey
  | item hmem _ ih =>
    cases hd with
    | arr hitems => exact ih (hitems _ hmem)
  | member hmem _ ih =>
    cases hd with
    | obj _ hmembers => exact ih (hmembers _ hmem)

private theorem duplicate_of_repeated? {seen : List Text} {fields : List (Text × Json)} {key : Text}
    (h : Fields.repeated? seen fields = some key) :
    (key ∈ seen ∧ key ∈ Fields.keys fields) ∨ List.Duplicate key (Fields.keys fields) := by
  induction fields generalizing seen with
  | nil => cases h
  | cons field rest ih =>
    obtain ⟨name, item⟩ := field
    rw [Fields.repeated?] at h
    split at h
    · next hseen =>
      cases h
      exact .inl ⟨List.contains_iff_mem.mp hseen, List.mem_cons_self⟩
    · rcases ih h with ⟨hseen, hmem⟩ | hduplicate
      · rcases List.mem_cons.mp hseen with rfl | hearlier
        · exact .inr (.cons_mem hmem)
        · exact .inl ⟨hearlier, List.mem_cons_of_mem _ hmem⟩
      · exact .inr (.cons_duplicate hduplicate)

/-- Closing either leaves a datum without repeated keys as it is, or names a key that is repeated in
it. -/
def Settles (d : Json) (x : Except Text Json) : Prop :=
  (x = .ok d ∧ d.Distinct) ∨ ∃ key, x = .error key ∧ d.Repeats key

mutual
private theorem closed_settles : (d : Json) → d.Settles (closed refuseRepeated d)
  | .arr items => by
    rw [closed]
    rcases closedItems_settles items with ⟨hok, hall⟩ | ⟨key, herror, d, hmem, hkey⟩
    · rw [hok]
      exact .inl ⟨rfl, .arr hall⟩
    · rw [herror]
      exact .inr ⟨key, rfl, .item hmem hkey⟩
  | .obj fields => by
    rw [closed]
    rcases closedMembers_settles fields with ⟨hok, hall⟩ | ⟨key, herror, field, hmem, hkey⟩
    · rw [hok, Parser.ok_bind, refuseRepeated]
      cases hrepeated : Fields.repeated? [] fields with
      | none => exact .inl ⟨rfl, .obj (Fields.nodup_of_repeated? hrepeated).1 hall⟩
      | some key =>
        refine .inr ⟨key, rfl, .here ?_⟩
        exact (duplicate_of_repeated? hrepeated).resolve_left fun h => List.not_mem_nil h.1
    · rw [herror]
      exact .inr ⟨key, rfl, .member hmem hkey⟩
  | .null => .inl ⟨rfl, .null⟩
  | .bool b => .inl ⟨rfl, .bool b⟩
  | .int n => .inl ⟨rfl, .int n⟩
  | .float x => .inl ⟨rfl, .float x⟩
  | .str s => .inl ⟨rfl, .str s⟩

private theorem closedItems_settles : (items : List Json) →
    (closedItems refuseRepeated items = .ok items ∧ ∀ d ∈ items, d.Distinct) ∨
      ∃ key, closedItems refuseRepeated items = .error key ∧ ∃ d ∈ items, d.Repeats key
  | [] => .inl ⟨rfl, by simp⟩
  | item :: rest => by
    rw [closedItems]
    rcases closed_settles item with ⟨hok, hitem⟩ | ⟨key, herror, hkey⟩
    · rw [hok, Parser.ok_bind]
      rcases closedItems_settles rest with ⟨hrest, hall⟩ | ⟨key, herror, d, hmem, hkey⟩
      · rw [hrest]
        exact .inl ⟨rfl, List.forall_mem_cons.mpr ⟨hitem, hall⟩⟩
      · rw [herror]
        exact .inr ⟨key, rfl, d, List.mem_cons_of_mem _ hmem, hkey⟩
    · rw [herror]
      exact .inr ⟨key, rfl, item, List.mem_cons_self, hkey⟩

private theorem closedMembers_settles : (fields : List (Text × Json)) →
    (closedMembers refuseRepeated fields = .ok fields ∧ ∀ field ∈ fields, field.2.Distinct) ∨
      ∃ key, closedMembers refuseRepeated fields = .error key ∧
        ∃ field ∈ fields, field.2.Repeats key
  | [] => .inl ⟨rfl, by simp⟩
  | (name, item) :: rest => by
    rw [closedMembers]
    rcases closed_settles item with ⟨hok, hitem⟩ | ⟨key, herror, hkey⟩
    · rw [hok, Parser.ok_bind]
      rcases closedMembers_settles rest with ⟨hrest, hall⟩ | ⟨key, herror, field, hmem, hkey⟩
      · rw [hrest]
        exact .inl ⟨rfl, List.forall_mem_cons.mpr ⟨hitem, hall⟩⟩
      · rw [herror]
        exact .inr ⟨key, rfl, field, List.mem_cons_of_mem _ hmem, hkey⟩
    · rw [herror]
      exact .inr ⟨key, rfl, (name, item), List.mem_cons_self, hkey⟩
end

/-- A text that can be read is read as it stands, or refused for a key that an object in it has
twice. -/
theorem parseDistinct_of_parseWhole {text : List CodePoint} {d : Json}
    (h : parseWhole text = .ok d) :
    (parseDistinct text = .ok d ∧ d.Distinct) ∨
      ∃ key, parseDistinct text = .error (.refused key) ∧ d.Repeats key := by
  rw [parseDistinct, Parser.document_eq_closed h]
  rcases closed_settles d with ⟨hok, hdistinct⟩ | ⟨key, herror, hkey⟩
  · rw [hok]
    exact .inl ⟨rfl, hdistinct⟩
  · rw [herror]
    exact .inr ⟨key, rfl, hkey⟩

/-- Whatever can be read can be read with all members of its objects. -/
theorem exists_parseWhole {text : List CodePoint} {x : Json} (h : parse text = .ok x) :
    ∃ d, parseWhole text = .ok d := Parser.exists_document_whole h

/-- Without repeated keys it does not matter that the last member of a key would count. -/
theorem parse_of_distinct {text : List CodePoint} {d : Json} (h : parseWhole text = .ok d)
    (hd : d.Distinct) : parse text = .ok d := by
  have hmerge (fields : List (Text × Json)) (hnodup : (Fields.keys fields).Nodup) :
      mergeRepeated fields = .ok fields :=
    congrArg Except.ok (Fields.putAll_of_nodup hnodup)
  rw [parse, Parser.document_eq_closed h, closed_of_distinct hmerge hd]
  rfl

end Json
end EndpointRules
