import EndpointRules.Document.Diagnostics

/-! What a look at a document finds, said from where the look starts. A sequence of looks is clean
exactly when each of its steps is, so acceptance can be read off one part at a time. -/

namespace EndpointRules

/-- A defect with its place below the start of a look. -/
structure Finding where
  below : List Text
  message : Text
  value : Json

namespace Finding

/-- The same defect for a look that starts one part further out. -/
def under (segment : Text) (f : Finding) : Finding := { f with below := segment :: f.below }

/-- The defect that a look from a place reports. -/
def seenFrom (place : List Text) (f : Finding) : Diagnostic :=
  ⟨Diagnostics.pathOf (place ++ f.below), f.message, f.value⟩

theorem seenFrom_under (place : List Text) (segment : Text) (f : Finding) :
    (f.under segment).seenFrom place = f.seenFrom (place ++ [segment]) := by
  simp [under, seenFrom]

end Finding

namespace Report
variable {α β : Type} {look : Report α} {next : α → Report β}

/-- Wherever a look starts, it ends there, gives this answer, and adds these findings behind all
earlier defects. -/
def Finds (look : Report α) (answer : α) (found : List Finding) : Prop :=
  ∀ d : Diagnostics,
    look.run d = (answer, ⟨d.place, d.errors ++ found.map fun f => f.seenFrom d.place⟩)

theorem finds_pure (a : α) : Finds (pure a) a [] := by
  intro d
  rw [List.map_nil, List.append_nil]
  rfl

theorem finds_defect (message : Text) (value : Json) :
    (defect message value).Finds () [⟨[], message, value⟩] := by
  intro d
  have hplace : (⟨[], message, value⟩ : Finding).seenFrom d.place = ⟨d.path, message, value⟩ := by
    rw [Finding.seenFrom, List.append_nil]
    rfl
  rw [List.map_singleton, hplace]
  rfl

theorem Finds.bind {a : α} {b : β} {found later : List Finding} (h : look.Finds a found)
    (hn : (next a).Finds b later) : (look >>= next).Finds b (found ++ later) := by
  intro d
  have hrun : (look >>= next).run d = (next (look.run d).1).run (look.run d).2 := rfl
  rw [hrun, h d, hn]
  simp

/-- A look at a part finds the same defects one part further down, and comes back. -/
theorem Finds.within {a : α} {found : List Finding} (h : look.Finds a found) (segment : Text) :
    (within segment look).Finds a (found.map (Finding.under segment)) := by
  intro d
  have hrun : (Report.within segment look).run d =
      let inside := look.run (d.push segment)
      (inside.1, inside.2.pop?.getD inside.2) := rfl
  rw [hrun, h]
  simp [Diagnostics.push, Diagnostics.pop?, Function.comp_def, Finding.seenFrom_under]

/-- The answer of a look at a whole document. -/
def answer (look : Report α) : α := (look.run Diagnostics.empty).1

theorem Finds.answer_eq {a : α} {found : List Finding} (h : look.Finds a found) :
    look.answer = a := by
  rw [answer, h]

/-- A look that reports nothing of a whole document. -/
def Clean (look : Report α) : Prop := look.errors = []

theorem Finds.clean_iff {a : α} {found : List Finding} (h : look.Finds a found) :
    look.Clean ↔ found = [] := by
  rw [Clean, errors, h]
  simp [Diagnostics.empty]

/-- A look whose answer and findings do not depend on where it starts or what was found before. -/
def Regular (look : Report α) : Prop := ∃ found, look.Finds look.answer found

theorem Finds.regular {a : α} {found : List Finding} (h : look.Finds a found) : look.Regular :=
  ⟨found, h.answer_eq ▸ h⟩

@[simp] theorem regular_pure (a : α) : (pure a : Report α).Regular := (finds_pure a).regular

@[simp] theorem regular_defect (message : Text) (value : Json) :
    (defect message value).Regular := (finds_defect message value).regular

theorem Regular.bind (h : look.Regular) (hn : ∀ a, (next a).Regular) : (look >>= next).Regular := by
  obtain ⟨found, hf⟩ := h
  obtain ⟨later, hl⟩ := hn look.answer
  exact (hf.bind hl).regular

@[simp] theorem Regular.within (h : look.Regular) (segment : Text) :
    (Report.within segment look).Regular := by
  obtain ⟨found, hf⟩ := h
  exact (hf.within segment).regular

private theorem Regular.map (h : look.Regular) (f : α → β) : (f <$> look).Regular :=
  h.bind fun a => regular_pure (f a)

@[simp] theorem Regular.discard (h : look.Regular) : (discard look : Report PUnit).Regular :=
  h.map _

@[simp] theorem regular_require (condition : Bool) (message : Text) (value : Json) :
    (require condition message value).Regular := by
  unfold require
  split
  · exact regular_pure ()
  · exact regular_defect message value

theorem Regular.answer_bind (h : look.Regular) (hn : ∀ a, (next a).Regular) :
    (look >>= next).answer = (next look.answer).answer := by
  obtain ⟨found, hf⟩ := h
  obtain ⟨later, hl⟩ := hn look.answer
  exact (hf.bind hl).answer_eq

@[simp] theorem Regular.answer_within (h : look.Regular) (segment : Text) :
    (Report.within segment look).answer = look.answer := by
  obtain ⟨found, hf⟩ := h
  exact (hf.within segment).answer_eq

@[simp] theorem clean_pure (a : α) : (pure a : Report α).Clean := rfl

@[simp] theorem not_clean_defect (message : Text) (value : Json) :
    ¬ (defect message value).Clean := by
  simp [(finds_defect message value).clean_iff]

@[simp] theorem clean_require_iff (condition : Bool) (message : Text) (value : Json) :
    (require condition message value).Clean ↔ condition = true := by
  cases condition
  · simp [require]
  · simp [require]

/-- A sequence is clean when its first step is, and what follows its answer. -/
theorem Regular.clean_bind_iff (h : look.Regular) (hn : ∀ a, (next a).Regular) :
    (look >>= next).Clean ↔ look.Clean ∧ (next look.answer).Clean := by
  obtain ⟨found, hf⟩ := h
  obtain ⟨later, hl⟩ := hn look.answer
  rw [(hf.bind hl).clean_iff, hf.clean_iff, hl.clean_iff, List.append_eq_nil_iff]

@[simp] theorem Regular.clean_within_iff (h : look.Regular) (segment : Text) :
    (Report.within segment look).Clean ↔ look.Clean := by
  obtain ⟨found, hf⟩ := h
  rw [(hf.within segment).clean_iff, hf.clean_iff, List.map_eq_nil_iff]

@[simp] theorem Regular.clean_map_iff (h : look.Regular) (f : α → β) :
    (f <$> look).Clean ↔ look.Clean := by
  have hm : f <$> look = look >>= fun a => pure (f a) := rfl
  rw [hm, h.clean_bind_iff fun a => regular_pure (f a)]
  simp

@[simp] theorem Regular.clean_discard_iff (h : look.Regular) :
    (Functor.discard look : Report PUnit).Clean ↔ look.Clean := h.clean_map_iff _

end Report
end EndpointRules
