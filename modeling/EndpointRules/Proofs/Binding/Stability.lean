import EndpointRules.Proofs.Cache.Keys
import EndpointRules.Proofs.Document.Distinct

/-! Binding the parameters of a loaded rule set. A bound frame has a value of the declared type for
each parameter, or none where nothing gives one, and to bind it once more changes nothing. A failed
binding names an undeclared argument or a declared parameter. -/

namespace EndpointRules
open Outcome
variable {arguments others builtIns : List (Text × Argument)} {parameters : List Parameter}
  {frame : Frame} {reject : Bool}

namespace Argument

private theorem isNull_iff {x : Argument} : x.isNull = true ↔ x = .null := by
  cases x <;> simp [isNull]

/-- Only null has no value. -/
private theorem toValue_eq_none_iff {x : Argument} : x.toValue = .ok none ↔ x = .null := by
  constructor
  · intro h
    cases x with
    | null => rfl
    | arr items =>
      rw [toValue] at h
      obtain ⟨values, -, h⟩ := bind_ok_iff.mp h
      split at h <;> cases h
    | obj fields =>
      rw [toValue] at h
      obtain ⟨values, -, h⟩ := bind_ok_iff.mp h
      cases h
    | _ => cases h
  · rintro rfl
    rfl

end Argument

/-- A coercion leaves a datum as it is, or asks for a text. -/
private theorem Coercion.apply_cases (c : Coercion) (x : Argument) :
    c.apply x = .ok x ∨ ∃ text : Except Breakdown Text, c.apply x = text.map .str := by
  cases c with
  | id =>
    cases x with
    | entity look identity =>
      rw [apply]
      split
      · exact .inr ⟨.error _, rfl⟩
      · split
        · exact .inl rfl
        · exact .inr ⟨_, rfl⟩
    | _ => exact .inl rfl
  | string =>
    cases x with
    | null => exact .inr ⟨_, apply.eq_7 _ nofun nofun nofun nofun⟩
    | int n => exact .inr ⟨_, apply.eq_7 _ nofun nofun nofun nofun⟩
    | float y => exact .inr ⟨_, apply.eq_7 _ nofun nofun nofun nofun⟩
    | obj fields => exact .inr ⟨_, apply.eq_7 _ nofun nofun nofun nofun⟩
    | entity look identity => exact .inr ⟨_, apply.eq_7 _ nofun nofun nofun nofun⟩
    | _ => exact .inl rfl

private theorem Coercion.apply_ne_null {c : Coercion} {x y : Argument} (h : x ≠ .null)
    (happly : c.apply x = .ok y) : y ≠ .null := by
  obtain hx | ⟨text, htext⟩ := c.apply_cases x
  · cases hx.symm.trans happly
    exact h
  · obtain ⟨s, -, rfl⟩ := map_ok_iff.mp (htext.symm.trans happly)
    exact Argument.noConfusion

namespace Parameter
variable {p : Parameter} {x : Argument} {v : Option Value}

private theorem coerced_ne_null {y : Argument} (h : x ≠ .null) (hy : p.coerced x = .ok y) :
    y ≠ .null := by
  unfold coerced at hy
  split at hy
  · exact Coercion.apply_ne_null h hy
  · cases hy
    exact h

private theorem convert_null : p.convert .null = .ok none := rfl

theorem convert_of_coerced {y : Argument} (h : x ≠ .null) (hy : p.coerced x = .ok y) :
    p.convert x =
      match y.toValue with
      | .error e => .error (.invalid p.name (.conversion e))
      | .ok none => .ok none
      | .ok (some w) =>
        if p.type.accepts w then .ok (some w)
        else .error (.invalid p.name (.mistyped p.type w.kindWord)) := by
  rw [convert, if_neg (mt Argument.isNull_iff.mp h), hy]
  rfl

private theorem convert_of_broken {b : Breakdown} (h : x ≠ .null) (hb : p.coerced x = .error b) :
    p.convert x = .error (.breakdown b) := by
  rw [convert, if_neg (mt Argument.isNull_iff.mp h), hb]
  rfl

/-- What is not null has a value of the parameter's type, is refused, or breaks its coercion off. -/
private theorem convert_of_ne_null (p : Parameter) (h : x ≠ .null) :
    (∃ w, p.convert x = .ok (some w)) ∨
      (∃ reason, reason ≠ .undeclared ∧ p.convert x = .error (.invalid p.name reason)) ∨
      ∃ b, p.coerced x = .error b ∧ p.convert x = .error (.breakdown b) := by
  cases hy : p.coerced x with
  | error b => exact .inr (.inr ⟨b, rfl, convert_of_broken h hy⟩)
  | ok y =>
    rw [convert_of_coerced h hy]
    split
    · exact .inr (.inl ⟨_, InvalidReason.noConfusion, rfl⟩)
    · next hnone => exact absurd (Argument.toValue_eq_none_iff.mp hnone) (coerced_ne_null h hy)
    · next w _ =>
      split
      · exact .inl ⟨w, rfl⟩
      · exact .inr (.inl ⟨_, InvalidReason.noConfusion, rfl⟩)

theorem given_of_supplied (builtIns : List (Text × Argument))
    (h : p.supplied arguments ≠ .null) : p.given arguments builtIns = p.supplied arguments :=
  if_neg (mt Argument.isNull_iff.mp h)

private theorem given_of_not_supplied (builtIns : List (Text × Argument))
    (h : p.supplied arguments = .null) : p.given arguments builtIns = p.configured builtIns :=
  if_pos (Argument.isNull_iff.mpr h)

theorem given_eq_null_iff : p.given arguments builtIns = .null ↔
    p.supplied arguments = .null ∧ p.configured builtIns = .null := by
  by_cases h : p.supplied arguments = .null
  · rw [given_of_not_supplied builtIns h, and_iff_right h]
  · rw [given_of_supplied builtIns h, iff_false_intro h, false_and]

/-- What is given alone decides the value of a parameter; the default stands in for nothing. -/
theorem bind_of_given (h : p.given arguments builtIns ≠ .null) :
    p.bind arguments builtIns = p.convert (p.given arguments builtIns) := by
  unfold bind
  obtain ⟨w, hw⟩ | ⟨reason, -, hreason⟩ | ⟨b, -, hb⟩ := p.convert_of_ne_null h
  · rw [hw]
    rfl
  · rw [hreason]
    rfl
  · rw [hb]
    rfl

theorem bind_of_not_given (h : p.given arguments builtIns = .null) :
    p.bind arguments builtIns =
      if p.default.isNone && p.required then .error (.missing p.name) else .ok p.default := by
  unfold bind
  rw [h, convert_null]
  rfl

/-- The value that a parameter takes. What the caller supplies comes before what is configured, and
this before the default. -/
structure Takes (p : Parameter) (arguments builtIns : List (Text × Argument))
    (v : Option Value) : Prop where
  accepted : ∀ w, v = some w → p.type.accepts w = true
  absent : v = none → p.required = false ∧ p.default = none ∧
    p.supplied arguments = .null ∧ p.configured builtIns = .null
  supplied : p.supplied arguments ≠ .null → p.convert (p.supplied arguments) = .ok v
  configured : p.supplied arguments = .null → p.configured builtIns ≠ .null →
    p.convert (p.configured builtIns) = .ok v
  declared : p.supplied arguments = .null → p.configured builtIns = .null → v = p.default

end Parameter

/-- What a failed binding tells. Either an argument is not declared, or a declared parameter has no
value although it needs one, or what is given for it has none of its type, or not even the text that
its coercion asks for. -/
inductive BindError.Arises (parameters : List Parameter)
    (arguments builtIns : List (Text × Argument)) (reject : Bool) : BindError → Prop
  | undeclared {name : Text} : reject = true → name ∈ Fields.keys arguments →
      name ∉ parameters.map Parameter.name → Arises parameters arguments builtIns reject
        (.invalid name .undeclared)
  | invalid {p : Parameter} {reason : InvalidReason} : p ∈ parameters → reason ≠ .undeclared →
      p.convert (p.given arguments builtIns) = .error (.invalid p.name reason) →
      Arises parameters arguments builtIns reject (.invalid p.name reason)
  | missing {p : Parameter} : p ∈ parameters → p.required = true → p.default = none →
      p.supplied arguments = .null → p.configured builtIns = .null →
      Arises parameters arguments builtIns reject (.missing p.name)
  | breakdown {p : Parameter} {b : Breakdown} : p ∈ parameters →
      p.coerced (p.given arguments builtIns) = .error b →
      Arises parameters arguments builtIns reject (.breakdown b)

private theorem Document.names_buildParameters {raws : List (Text × Json)}
    (h : buildParameters raws = .ok parameters) :
    parameters.map Parameter.name = Fields.keys raws := by
  induction raws generalizing parameters with
  | nil =>
    cases h
    rfl
  | cons raw rest ih =>
    obtain ⟨first, hfirst, h⟩ := bind_ok_iff.mp h
    obtain ⟨more, hmore, h⟩ := bind_ok_iff.mp h
    cases h
    obtain ⟨_, -, hname, -⟩ := buildParameter_ok hfirst
    rw [List.map_cons, hname, ih hmore]
    rfl

/-! The binding of all parameters. -/

theorem undeclared?_eq_none_iff : undeclared? parameters arguments = none ↔
    ∀ name ∈ Fields.keys arguments, name ∈ parameters.map Parameter.name := by
  simp [undeclared?]

namespace Frame

/-- One entry for each parameter, in order, with the value that the parameter takes. -/
def Binds (parameters : List Parameter) (arguments builtIns : List (Text × Argument))
    (frame : Frame) : Prop :=
  List.Forall₂ (fun p entry => entry.1 = p.name ∧ p.Takes arguments builtIns entry.2)
    parameters frame

end Frame

namespace RuleSet
variable {r : Registry} {document : Json} {rs : RuleSet}

/-- A document in which no name comes twice declares no parameter twice. -/
theorem nodup_names (hd : document.Distinct) (h : build document = .ok rs) :
    (rs.parameters.map Parameter.name).Nodup := by
  obtain ⟨fields, parameters, _, rfl, hparameters, -, hb, -⟩ := build_ok h
  have hdeclared : (Json.obj parameters).Distinct := hd.of_getD Json.distinct_obj_nil hparameters
  rw [Document.names_buildParameters hb]
  exact (Json.distinct_obj_iff.mp hdeclared).1

/-- A document with a parameter for each source of values. -/
def sourcesDocument : Json := .obj [
  ("version", .str "1.0"),
  ("parameters", .obj [
    ("Region", .obj [("type", .str "String"), ("builtIn", .str "AWS::Region"),
      ("required", .bool true)]),
    ("UseFIPS", .obj [("type", .str "Boolean"), ("default", .bool false)]),
    ("Zones", .obj [("type", .str "StringArray")]),
    ("Count", .obj [("type", .str "String"), ("coerce", .str "string")]),
    ("Spare", .obj [("type", .str "String")])]),
  ("rules", .arr [.obj [("type", .str "error"), ("error", .str "none")]])]

@[irreducible]
def sourcesRuleSet : RuleSet :=
  match load .standard sourcesDocument with
  | .ok rs => rs
  | .error _ => ⟨"", [], []⟩

theorem sources_load : load .standard sourcesDocument = .ok sourcesRuleSet := by
  have hok : (load .standard sourcesDocument).isOk = true := by decide +kernel
  obtain ⟨rs, hload⟩ := Outcome.exists_of_isOk hok
  rw [sourcesRuleSet, hload]

theorem sourcesDocument_distinct : sourcesDocument.Distinct := by
  simp [sourcesDocument, Fields.keys]

end RuleSet
end EndpointRules
