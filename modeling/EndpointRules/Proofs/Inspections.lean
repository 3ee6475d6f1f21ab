import EndpointRules.Proofs.Findings

/-! Looks at a document that may be broken off. A look is regular for a cause if it comes to the
same wherever it starts: it comes back with an answer and findings of its own, or it is broken off
for that cause. A sequence of looks is clean exactly when each of its steps comes back and finds
nothing. -/

namespace EndpointRules.Inspection
variable {α β : Type} {look : Inspection α} {next : α → Inspection β} {a : α} {answer : β}
  {found later : List Finding} {b : Breakdown} {cause wider : Breakdown → Prop}

/-- Wherever a look starts, it ends there, gives this answer, and adds these findings behind all
earlier defects. -/
def Finds (look : Inspection α) (answer : α) (found : List Finding) : Prop :=
  look.run.Finds (.ok answer) found

/-- Wherever a look starts, it is broken off there or further down, with all earlier defects in
front of those that it has added. -/
def Breaks (look : Inspection α) (b : Breakdown) : Prop :=
  ∀ d : Diagnostics, ∃ below added,
    look.run.run d = (.error b, ⟨d.place ++ below, d.errors ++ added⟩)

theorem finds_pure (a : α) : Finds (pure a) a [] := Report.finds_pure (Except.ok a)

theorem breaks_throw (b : Breakdown) : (throw b : Inspection α).Breaks b := by
  intro d
  refine ⟨[], [], ?_⟩
  rw [List.append_nil, List.append_nil]
  rfl

theorem finds_defect (message : Text) (value : Json) :
    (defect message value).Finds () [⟨[], message, value⟩] := by
  intro d
  exact congrArg (fun after => (Except.ok (), after.2)) (Report.finds_defect message value d)

/-! Sequences. -/

private theorem run_bind (look : Inspection α) (next : α → Inspection β) (d : Diagnostics) :
    (look >>= next).run.run d = match look.run.run d with
      | (.ok a, after) => (next a).run.run after
      | (.error b, after) => (.error b, after) := by
  change ((look.run >>= ExceptT.bindCont next).run d) = _
  change (ExceptT.bindCont next (look.run.run d).1).run (look.run.run d).2 = _
  rcases look.run.run d with ⟨_ | _, after⟩ <;> rfl

/-- A step that needs no look goes on with its answer. -/
theorem lift_ok_bind (a : α) (next : α → Inspection β) :
    ((liftM (Except.ok a : Except Breakdown α) : Inspection α) >>= next) = next a := rfl

theorem lift_error_bind (b : Breakdown) (next : α → Inspection β) :
    ((liftM (Except.error b : Except Breakdown α) : Inspection α) >>= next) = throw b := rfl

theorem Finds.bind (h : look.Finds a found) (hn : (next a).Finds answer later) :
    (look >>= next).Finds answer (found ++ later) := by
  intro d
  have hfirst := h d
  have hsecond := hn ⟨d.place, d.errors ++ found.map fun f => f.seenFrom d.place⟩
  refine (run_bind look next d).trans ?_
  rw [hfirst]
  refine hsecond.trans ?_
  simp

theorem Finds.bind_breaks (h : look.Finds a found) (hn : (next a).Breaks b) :
    (look >>= next).Breaks b := by
  intro d
  obtain ⟨below, added, hrun⟩ := hn ⟨d.place, d.errors ++ found.map fun f => f.seenFrom d.place⟩
  refine ⟨below, (found.map fun f => f.seenFrom d.place) ++ added, ?_⟩
  rw [run_bind, h d]
  simpa using hrun

theorem Breaks.bind (h : look.Breaks b) (next : α → Inspection β) : (look >>= next).Breaks b := by
  intro d
  obtain ⟨below, added, hrun⟩ := h d
  exact ⟨below, added, by rw [run_bind, hrun]⟩

/-- A look at a part finds the same defects one part further down, and comes back. -/
theorem Finds.within (h : look.Finds a found) (segment : Text) :
    (within segment look).Finds a (found.map (Finding.under segment)) := by
  intro d
  have hinside := h (d.push segment)
  refine (run_bind (modify (Diagnostics.push segment) : Inspection Unit) _ d).trans ?_
  refine (run_bind look _ (d.push segment)).trans ?_
  rw [hinside]
  have hleave : ((⟨(d.push segment).place, (d.push segment).errors ++
      found.map fun f => f.seenFrom (d.push segment).place⟩ : Diagnostics).pop?.getD
      ⟨(d.push segment).place, (d.push segment).errors ++
        found.map fun f => f.seenFrom (d.push segment).place⟩) =
      ⟨d.place, d.errors ++
        (found.map (Finding.under segment)).map fun f => f.seenFrom d.place⟩ := by
    simp [Diagnostics.push, Diagnostics.pop?, Function.comp_def, Finding.seenFrom_under]
  exact congrArg (Prod.mk (Except.ok a)) hleave

/-- A look at a part that is broken off stays inside of the part. -/
theorem Breaks.within (h : look.Breaks b) (segment : Text) : (within segment look).Breaks b := by
  intro d
  obtain ⟨below, added, hrun⟩ := h (d.push segment)
  refine ⟨segment :: below, added, ?_⟩
  refine (run_bind (modify (Diagnostics.push segment) : Inspection Unit) _ d).trans ?_
  refine (run_bind look _ (d.push segment)).trans ?_
  rw [hrun]
  simp [Diagnostics.push]

/-! Regular looks. -/

/-- A look that comes to the same wherever it starts, and that is broken off for a cause only. -/
def Regular (look : Inspection α) (cause : Breakdown → Prop) : Prop :=
  (∃ answer found, look.Finds answer found) ∨ ∃ b, look.Breaks b ∧ cause b

private theorem Finds.regular (h : look.Finds a found) : look.Regular cause := .inl ⟨a, found, h⟩

theorem Regular.mono (h : look.Regular cause) (hcause : ∀ b, cause b → wider b) :
    look.Regular wider :=
  h.imp_right fun ⟨b, hbreaks, hb⟩ => ⟨b, hbreaks, hcause b hb⟩

theorem regular_pure (a : α) : (pure a : Inspection α).Regular cause := (finds_pure a).regular

theorem regular_defect (message : Text) (value : Json) :
    (defect message value).Regular cause := (finds_defect message value).regular

theorem regular_throw (h : cause b) : (throw b : Inspection α).Regular cause :=
  .inr ⟨b, breaks_throw b, h⟩

theorem Regular.bind (h : look.Regular cause) (hn : ∀ a, (next a).Regular cause) :
    (look >>= next).Regular cause := by
  rcases h with ⟨a, found, hfound⟩ | ⟨b, hbreaks, hb⟩
  · rcases hn a with ⟨answer, later, hlater⟩ | ⟨b, hbreaks, hb⟩
    · exact (hfound.bind hlater).regular
    · exact .inr ⟨b, hfound.bind_breaks hbreaks, hb⟩
  · exact .inr ⟨b, hbreaks.bind next, hb⟩

theorem Regular.within (h : look.Regular cause) (segment : Text) :
    (Inspection.within segment look).Regular cause := by
  rcases h with ⟨a, found, hfound⟩ | ⟨b, hbreaks, hb⟩
  · exact (hfound.within segment).regular
  · exact .inr ⟨b, hbreaks.within segment, hb⟩

theorem Regular.discard (h : look.Regular cause) :
    (discard look : Inspection PUnit).Regular cause := h.bind fun _ => regular_pure _

theorem regular_require (condition : Bool) (message : Text) (value : Json) :
    (require condition message value).Regular cause := by
  unfold require
  split
  · exact regular_pure ()
  · exact regular_defect message value

/-- Only a datum that cannot be shown breaks off a report on it. -/
theorem regular_requireKnown (known : Bool) (what : Text) {value : Json}
    (h : value.hasLongNumber = true → cause .longNumber) :
    (requireKnown known what value).Regular cause := by
  unfold requireKnown
  split
  · exact regular_pure ()
  · unfold Json.shown
    split
    · next hlong => exact (regular_throw (h hlong)).bind fun shown => regular_defect _ _
    · exact (finds_pure _).regular.bind fun shown => regular_defect _ _

/-! Clean looks. -/

/-- A look at a whole document that comes back and reports nothing. -/
def Clean (look : Inspection α) : Prop := look.errors = .ok []

theorem Finds.errors_eq (h : look.Finds a found) :
    look.errors = .ok (found.map fun f => f.seenFrom []) := by
  rw [errors, h]
  rfl

theorem Finds.clean_iff (h : look.Finds a found) : look.Clean ↔ found = [] := by
  rw [Clean, h.errors_eq, Except.ok.injEq, List.map_eq_nil_iff]

theorem Breaks.errors_eq (h : look.Breaks b) : look.errors = .error b := by
  obtain ⟨below, added, hrun⟩ := h Diagnostics.empty
  rw [errors, hrun]
  rfl

private theorem Breaks.not_clean (h : look.Breaks b) : ¬ look.Clean := by
  rw [Clean, h.errors_eq]
  nofun

@[simp] theorem clean_pure (a : α) : (pure a : Inspection α).Clean := rfl

@[simp] theorem not_clean_throw (b : Breakdown) : ¬ (throw b : Inspection α).Clean :=
  (breaks_throw b).not_clean

@[simp] theorem not_clean_defect (message : Text) (value : Json) :
    ¬ (defect message value).Clean := by
  rw [(finds_defect message value).clean_iff]
  exact List.cons_ne_nil _ _

@[simp] theorem clean_require_iff (condition : Bool) (message : Text) (value : Json) :
    (require condition message value).Clean ↔ condition = true := by
  cases condition
  · simp [require]
  · simp [require]

/-- A sequence is clean when its first step comes back without findings, and what follows its answer
is clean. -/
private theorem Regular.clean_bind_iff_exists (h : look.Regular cause)
    (hn : ∀ a, (next a).Regular wider) :
    (look >>= next).Clean ↔ ∃ a, look.Finds a [] ∧ (next a).Clean := by
  constructor
  · intro hclean
    rcases h with ⟨a, found, hfound⟩ | ⟨b, hbreaks, -⟩
    · rcases hn a with ⟨answer, later, hlater⟩ | ⟨b, hbreaks, -⟩
      · obtain ⟨rfl, rfl⟩ := List.append_eq_nil_iff.mp ((hfound.bind hlater).clean_iff.mp hclean)
        exact ⟨a, hfound, hlater.clean_iff.mpr rfl⟩
      · exact absurd hclean (hfound.bind_breaks hbreaks).not_clean
    · exact absurd hclean (hbreaks.bind next).not_clean
  · rintro ⟨a, hfound, hclean⟩
    rcases hn a with ⟨answer, later, hlater⟩ | ⟨b, hbreaks, -⟩
    · exact (hfound.bind hlater).clean_iff.mpr (hlater.clean_iff.mp hclean)
    · exact absurd hclean hbreaks.not_clean

private theorem Regular.clean_iff_exists (h : look.Regular cause) :
    look.Clean ↔ ∃ a, look.Finds a [] := by
  constructor
  · intro hclean
    rcases h with ⟨a, found, hfound⟩ | ⟨b, hbreaks, -⟩
    · exact ⟨a, hfound.clean_iff.mp hclean ▸ hfound⟩
    · exact absurd hclean hbreaks.not_clean
  · rintro ⟨a, hfound⟩
    exact hfound.clean_iff.mpr rfl

theorem Regular.clean_bind_iff {first : Inspection Unit} {second : Unit → Inspection β}
    (h : first.Regular cause) (hn : ∀ u, (second u).Regular wider) :
    (first >>= second).Clean ↔ first.Clean ∧ (second ()).Clean := by
  rw [h.clean_bind_iff_exists hn, h.clean_iff_exists]
  exact ⟨fun ⟨_, hfound, hclean⟩ => ⟨⟨_, hfound⟩, hclean⟩,
    fun ⟨⟨_, hfound⟩, hclean⟩ => ⟨_, hfound, hclean⟩⟩

/-- A sequence that reports a defect first is not clean. -/
theorem not_clean_defect_bind {rest : Unit → Inspection β} (message : Text) (value : Json)
    (hn : (rest ()).Regular cause) : ¬ (defect message value >>= rest).Clean := by
  rw [(regular_defect message value : Regular _ cause).clean_bind_iff fun _ => hn]
  exact fun h => not_clean_defect message value h.1

@[simp] theorem Regular.clean_within_iff (h : look.Regular cause) (segment : Text) :
    (Inspection.within segment look).Clean ↔ look.Clean := by
  rcases h with ⟨a, found, hfound⟩ | ⟨b, hbreaks, -⟩
  · rw [(hfound.within segment).clean_iff, hfound.clean_iff, List.map_eq_nil_iff]
  · exact iff_of_false (hbreaks.within segment).not_clean hbreaks.not_clean

@[simp] theorem not_clean_within_defect (segment message : Text) (value : Json) :
    ¬ (Inspection.within segment (defect message value)).Clean := by
  rw [((finds_defect message value).within segment).clean_iff]
  exact List.cons_ne_nil _ _

@[simp] theorem Regular.clean_discard_iff (h : look.Regular cause) :
    (Functor.discard look : Inspection PUnit).Clean ↔ look.Clean := by
  have hd : (Functor.discard look : Inspection PUnit) = look >>= fun _ => pure PUnit.unit := rfl
  have hpure (_ : α) : (pure PUnit.unit : Inspection PUnit).Regular cause := regular_pure _
  rw [hd, h.clean_bind_iff_exists hpure, h.clean_iff_exists]
  simp

@[simp] theorem clean_requireKnown_iff (known : Bool) (what : Text) (value : Json) :
    (requireKnown known what value).Clean ↔ known = true := by
  cases known with
  | true => exact iff_of_true rfl rfl
  | false =>
    refine iff_of_false ?_ Bool.false_ne_true
    rw [requireKnown, if_neg Bool.false_ne_true, Json.shown]
    split
    · exact ((breaks_throw Breakdown.longNumber).bind fun shown =>
        defect ("Unknown " ++ what ++ ": " ++ shown) value).not_clean
    · exact not_clean_defect ("Unknown " ++ what ++ ": " ++ value.literal) value

/-! Looks that answer whether they found nothing. -/

section Honest
variable {look first second : Inspection Bool}

/-- A look that answers, wherever it starts, whether it finds nothing, or is broken off for a
cause. -/
def Honest (look : Inspection Bool) (cause : Breakdown → Prop) : Prop :=
  (∃ found, look.Finds found.isEmpty found) ∨ ∃ b, look.Breaks b ∧ cause b

theorem Honest.regular (h : look.Honest cause) : look.Regular cause :=
  h.imp_left fun ⟨found, hfound⟩ => ⟨found.isEmpty, found, hfound⟩

theorem Honest.mono (h : look.Honest cause) (hcause : ∀ b, cause b → wider b) :
    look.Honest wider :=
  h.imp_right fun ⟨b, hbreaks, hb⟩ => ⟨b, hbreaks, hcause b hb⟩

/-- From whatever state it starts, a look comes back to its place, leaves the earlier defects in
front and answers true exactly when it adds none behind them; or it is broken off for a cause, at
its place or further down, and the earlier defects stay in front too. -/
def AnswersTruly (look : Inspection Bool) (cause : Breakdown → Prop) : Prop :=
  ∀ d : Diagnostics, ∃ added : List Diagnostic,
    (∃ answer, look.run.run d = (.ok answer, ⟨d.place, d.errors ++ added⟩) ∧
      (answer = true ↔ added = [])) ∨
    ∃ b below, look.run.run d = (.error b, ⟨d.place ++ below, d.errors ++ added⟩) ∧ cause b

theorem Honest.answersTruly (h : look.Honest cause) : look.AnswersTruly cause := by
  intro d
  rcases h with ⟨found, hfound⟩ | ⟨b, hbreaks, hb⟩
  · refine ⟨found.map fun f => f.seenFrom d.place, .inl ⟨found.isEmpty, hfound d, ?_⟩⟩
    rw [List.isEmpty_iff, List.map_eq_nil_iff]
  · obtain ⟨below, added, hrun⟩ := hbreaks d
    exact ⟨added, .inr ⟨b, below, hrun, hb⟩⟩

/-- The answer is the same from every state. -/
theorem Honest.clean_of_answer (h : look.Honest cause) {d : Diagnostics}
    (ha : (look.run.run d).1 = .ok true) : look.Clean := by
  rcases h with ⟨found, hfound⟩ | ⟨b, hbreaks, hb⟩
  · rw [hfound d, Except.ok.injEq] at ha
    exact hfound.clean_iff.mpr (List.isEmpty_iff.mp ha)
  · obtain ⟨below, added, hrun⟩ := hbreaks d
    rw [hrun] at ha
    cases ha

private theorem Honest.clean_iff_finds (h : look.Honest cause) :
    look.Clean ↔ look.Finds true [] := by
  constructor
  · intro hclean
    rcases h with ⟨found, hfound⟩ | ⟨b, hbreaks, -⟩
    · obtain rfl := hfound.clean_iff.mp hclean
      exact hfound
    · exact absurd hclean hbreaks.not_clean
  · exact fun hfound => hfound.clean_iff.mpr rfl

theorem honest_true : (pure true : Inspection Bool).Honest cause := .inl ⟨[], finds_pure true⟩

theorem honest_throw (h : cause b) : (throw b : Inspection Bool).Honest cause :=
  .inr ⟨b, breaks_throw b, h⟩

theorem Honest.within (h : look.Honest cause) (segment : Text) :
    (Inspection.within segment look).Honest cause := by
  rcases h with ⟨found, hfound⟩ | ⟨b, hbreaks, hb⟩
  · refine .inl ⟨found.map (Finding.under segment), ?_⟩
    rw [List.isEmpty_map]
    exact hfound.within segment
  · exact .inr ⟨b, hbreaks.within segment, hb⟩

/-- Both looks are taken, and the answer is that neither of them finds anything. -/
theorem Honest.both (hf : first.Honest cause) (hs : second.Honest cause) :
    (first >>= fun ok => second >>= fun other => pure (ok && other)).Honest cause := by
  rcases hf with ⟨found, hfound⟩ | ⟨b, hbreaks, hb⟩
  · rcases hs with ⟨later, hlater⟩ | ⟨b, hbreaks, hb⟩
    · have hempty : (found ++ later).isEmpty = (found.isEmpty && later.isEmpty) := by
        cases found <;> rfl
      refine .inl ⟨found ++ (later ++ []), hfound.bind (hlater.bind ?_)⟩
      rw [List.append_nil, hempty]
      exact finds_pure _
    · exact .inr ⟨b, hfound.bind_breaks (hbreaks.bind _), hb⟩
  · exact .inr ⟨b, hbreaks.bind _, hb⟩

theorem Honest.clean_both_iff (hf : first.Honest cause) (hs : second.Honest wider) :
    (first >>= fun ok => second >>= fun other => pure (ok && other)).Clean ↔
      first.Clean ∧ second.Clean := by
  rw [hf.regular.clean_bind_iff_exists fun _ => hs.regular.bind fun _ => regular_pure _,
    hf.regular.clean_iff_exists, hs.regular.clean_iff_exists]
  have hrest (ok : Bool) : (second >>= fun other => pure (ok && other)).Clean ↔
      ∃ other, second.Finds other [] := by
    have hpure (other : Bool) : (pure (ok && other) : Inspection Bool).Regular wider :=
      regular_pure _
    rw [hs.regular.clean_bind_iff_exists hpure]
    simp only [clean_pure, and_true]
  simp only [hrest, exists_and_right]

/-- The second look is taken only if the first one found nothing, and perhaps not even then. -/
theorem Honest.andThen (hf : first.Honest cause) (hs : second.Honest cause) (more : Bool) :
    (first >>= fun ok => if more && ok then second else pure ok).Honest cause := by
  rcases hf with ⟨found, hfound⟩ | ⟨b, hbreaks, hb⟩
  · by_cases hmore : (more && found.isEmpty) = true
    · have hempty : found = [] := List.isEmpty_iff.mp (Bool.and_eq_true_iff.mp hmore).2
      have hnext : (if more && found.isEmpty then second else pure found.isEmpty) = second :=
        if_pos hmore
      rcases hs with ⟨later, hlater⟩ | ⟨b, hbreaks, hb⟩
      · refine .inl ⟨found ++ later, hfound.bind ?_⟩
        rw [hnext, hempty]
        exact hlater
      · refine .inr ⟨b, hfound.bind_breaks ?_, hb⟩
        rw [hnext]
        exact hbreaks
    · refine .inl ⟨found ++ [], hfound.bind ?_⟩
      rw [if_neg hmore, List.append_nil]
      exact finds_pure _
  · exact .inr ⟨b, hbreaks.bind _, hb⟩

theorem Honest.clean_andThen_iff (hf : first.Honest cause) (hs : second.Honest cause)
    (more : Bool) :
    (first >>= fun ok => if more && ok then second else pure ok).Clean ↔
      first.Clean ∧ (more = true → second.Clean) := by
  have hnext (ok : Bool) : (if more && ok then second else pure ok).Regular cause := by
    split
    · exact hs.regular
    · exact regular_pure ok
  rw [hf.regular.clean_bind_iff_exists hnext, hf.clean_iff_finds]
  constructor
  · rintro ⟨ok, hfirst, hclean⟩
    obtain rfl : ok = true := by
      have htrue := hf.clean_iff_finds.mp (hfirst.clean_iff.mpr rfl)
      have hsame := (hfirst Diagnostics.empty).symm.trans (htrue Diagnostics.empty)
      exact Except.ok.inj (Prod.mk.inj hsame).1
    exact ⟨hfirst, fun hmore => by simpa [hmore] using hclean⟩
  · rintro ⟨hfirst, hsecond⟩
    refine ⟨true, hfirst, ?_⟩
    cases more with
    | true => exact hsecond rfl
    | false => exact clean_pure true

end Honest
end EndpointRules.Inspection
