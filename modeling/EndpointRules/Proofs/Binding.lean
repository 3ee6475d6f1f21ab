import EndpointRules.Proofs.Document.Loaded
import EndpointRules.Proofs.Typing.Soundness

/-! Frames that binding gives: one entry for each declared parameter, in order, with a value of its
declared type or none. -/

namespace EndpointRules
variable {arguments builtIns : List (Text × Argument)} {parameters : List Parameter} {frame : Frame}

namespace Parameter
variable {p : Parameter}

private theorem accepts_of_convert {x : Argument} {v : Value} (h : p.convert x = .ok (some v)) :
    p.type.accepts v = true := by
  unfold convert at h
  split at h
  · cases h
  · obtain ⟨coerced, -, h⟩ := Outcome.bind_ok_iff.mp h
    split at h
    · cases h
    · cases h
    · split at h
      · next haccepts =>
        cases h
        exact haccepts
      · cases h

/-- A parameter is bound to a value of its type, or to none. -/
theorem admits_of_bind {v : Option Value} (hd : p.DefaultFits)
    (h : p.bind arguments builtIns = .ok v) : p.staticType.Admits v := by
  intro w hw
  obtain ⟨converted, hconverted, h⟩ := Outcome.bind_ok_iff.mp h
  have hv : converted.or p.default = some w := by
    dsimp only at h
    split at h
    · cases h
    · cases h
      exact hw
  rw [staticType, ParameterType.admits_staticType]
  cases converted with
  | some given =>
    cases hv
    exact accepts_of_convert hconverted
  | none => exact hd w hv

end Parameter

theorem bindAll_ok_iff :
    (bindAll arguments builtIns parameters).outcome = .ok frame ↔
      List.Forall₂ (fun p entry => entry.1 = p.name ∧ p.bind arguments builtIns = .ok entry.2)
        parameters frame := by
  induction parameters generalizing frame with
  | nil =>
    constructor
    · rintro ⟨⟩
      exact .nil
    · rintro ⟨⟩
      rfl
  | cons p rest ih =>
    simp only [bindAll, Noted.bind_ok_iff, ih]
    constructor
    · rintro ⟨v, hv, others, hothers, h⟩
      cases h
      exact .cons ⟨rfl, hv⟩ hothers
    · intro h
      cases h with
      | @cons _ entry _ others hentry hothers =>
        obtain ⟨name, v⟩ := entry
        obtain ⟨rfl, hv⟩ := hentry
        exact ⟨v, hv, others, hothers, rfl⟩

theorem bindAll_error {e : BindError}
    (h : (bindAll arguments builtIns parameters).outcome = .error e) :
    ∃ p ∈ parameters, p.bind arguments builtIns = .error e := by
  induction parameters with
  | nil => cases h
  | cons p rest ih =>
    rw [bindAll] at h
    obtain hfirst | ⟨v, -, h⟩ := Noted.bind_error_iff.mp h
    · exact ⟨p, List.mem_cons_self, hfirst⟩
    · obtain hrest | ⟨entries, -, h⟩ := Noted.bind_error_iff.mp h
      · obtain ⟨q, hq, hbind⟩ := ih hrest
        exact ⟨q, List.mem_cons_of_mem p hq, hbind⟩
      · cases h

theorem bindAll_of_bindParameters {rejectUnknown : Bool}
    (h : (bindParameters parameters arguments builtIns rejectUnknown).outcome = .ok frame) :
    (bindAll arguments builtIns parameters).outcome = .ok frame := by
  unfold bindParameters at h
  split at h
  · split at h
    · cases h
    · exact h
  · exact h

/-- A bound frame gives every declared name a value of the declared type, or none. -/
theorem models_of_bindAll (hd : ∀ p ∈ parameters, p.DefaultFits)
    (h : (bindAll arguments builtIns parameters).outcome = .ok frame) :
    (Environment.ofFrame frame).Models (TyEnv.ofParameters parameters) := by
  intro name type htype
  rw [Environment.find?_ofFrame]
  have hentries := bindAll_ok_iff.mp h
  clear h
  induction hentries with
  | nil => cases htype
  | @cons p entry rest others hentry hothers ih =>
    obtain ⟨entryName, v⟩ := entry
    obtain ⟨rfl, hv⟩ := hentry
    obtain ⟨hfirst, hrest⟩ := List.forall_mem_cons.mp hd
    simp only [TyEnv.ofParameters, List.map_cons, TyEnv.find?, Fields.get?] at htype
    rw [Fields.get?]
    split at htype
    · next hname =>
      cases htype
      exact ⟨v, if_pos hname, Parameter.admits_of_bind hfirst hv⟩
    · next hname =>
      rw [if_neg hname]
      exact ih hrest htype

end EndpointRules
