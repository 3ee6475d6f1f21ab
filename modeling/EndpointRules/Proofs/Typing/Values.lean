import EndpointRules.Function.Registry
import EndpointRules.Parameter
import EndpointRules.Proofs.Breakdowns
import EndpointRules.Proofs.Uri.Encoding
import Mathlib.Data.List.Forall2

/-! The values of a static type, and functions that keep to their declared types. -/

namespace EndpointRules

namespace Ty

/-- A value belongs to a type. The items of a list belong to the item type, and `any` leaves a
value unconstrained. -/
def admits : Ty → Value → Bool
  | .any, _ => true
  | .bool, .bool _ | .int, .int _ | .string, .string _ | .record, .record _ => true
  | .list of, .list items => items.all of.admits
  | _, _ => false

/-- A value that may be absent belongs to a type; absence belongs to each. -/
def Admits (type : Ty) (v : Option Value) : Prop := ∀ w, v = some w → type.admits w = true

@[simp] theorem admits_none (type : Ty) : type.Admits none := by
  intro w h
  cases h

@[simp] theorem admits_some_iff (type : Ty) (v : Value) :
    type.Admits (some v) ↔ type.admits v = true := by
  simp [Admits]

theorem any_admits (v : Option Value) : Ty.any.Admits v := by
  intro w _
  cases w <;> rfl

/-- A type without an item type. -/
def isScalar : Ty → Bool
  | .list _ => false
  | _ => true

/-- What may stand where a scalar type is declared belongs to it, unless it may be anything. -/
theorem admits_of_assignable {expected got : Ty} {v : Value} (hs : expected.isScalar = true)
    (ha : expected.assignable got = true) (hg : got ≠ .any) (hv : got.admits v = true) :
    expected.admits v = true := by
  cases expected <;> cases got <;> simp_all [assignable, isScalar, admits]

end Ty

/-- The values that a parameter accepts are those of its static type. -/
theorem ParameterType.admits_staticType (type : ParameterType) (v : Value) :
    type.staticType.admits v = type.accepts v := by
  have hitems (items : List Value) : items.all Ty.string.admits = items.all isText := by
    congr 1
    funext item
    cases item <;> rfl
  cases type <;> cases v <;> simp [staticType, Ty.admits, accepts, hitems]

/-- A breakdown over a text or a number, not over a name that a document gives or over an object of
the caller's own. -/
def Breakdown.isOverData : Breakdown → Bool
  | .longNumeral _ | .longNumber | .unencodable _ _ _ => true
  | .unsearchable _ | .foreign _ _ => false

namespace Function
variable {f : Function} {args : List (Option Value)}

/-- Arguments that belong to the declared types of parameters. -/
abbrev Accept (params : List Ty) (args : List (Option Value)) : Prop :=
  List.Forall₂ Ty.Admits params args

/-- How a call may end: with an answer of the return type, with a refusal that is not about types,
with a breakdown over its data, or with a mismatch, which only arguments outside the declared types
give. -/
inductive Ends (f : Function) (args : List (Option Value)) : Prop
  | answer (v : Option Value) : f.body args = .ok v → f.returns.Admits v → Ends f args
  | refusal (e : EvalError) : f.body args = .error e → e.code? = some .evaluation → Ends f args
  | breakdown (b : Breakdown) :
      f.body args = .error (.breakdown b) → b.isOverData = true → Ends f args
  | mismatch (e : EvalError) : f.body args = .error e → e.code? = some .type →
      ¬ Accept f.params args → Ends f args

private theorem Ends.absent (h : f.body args = .ok none) :
    Ends f args := .answer none h (Ty.admits_none _)

private theorem Ends.present {v : Value} (h : f.body args = .ok (some v))
    (hv : f.returns.admits v = true) :
    Ends f args := .answer (some v) h ((Ty.admits_some_iff _ _).mpr hv)

/-- A function keeps to its declaration, whatever it is applied to. -/
structure Sound (f : Function) : Prop where
  scalar : ∀ type ∈ f.params, type.isScalar = true
  ends : ∀ args, f.Ends args

theorem expectText_cases (name : Text) (v : Value) :
    (∃ s, v = .string s) ∨ Ty.string.admits v = false ∧
      expectText name v = .error (.typeMismatch "string" v.kindWord name) := by
  cases v <;> simp [expectText, Ty.admits]

private theorem expectBool_cases (name : Text) (v : Value) :
    (∃ b, v = .bool b) ∨ Ty.bool.admits v = false ∧
      expectBool name v = .error (.typeMismatch "bool" v.kindWord name) := by
  cases v <;> simp [expectBool, Ty.admits]

private theorem expectInt_cases (name : Text) (v : Value) :
    (∃ n, v = .int n) ∨ Ty.int.admits v = false ∧
      expectInt name v = .error (.typeMismatch "int" v.kindWord name) := by
  cases v <;> simp [expectInt, Ty.admits]

theorem isSet_sound : isSet.Sound where
  scalar := by decide
  ends := by
    rintro (_ | ⟨v, _ | ⟨_, _⟩⟩)
    case cons.nil => exact .present rfl rfl
    all_goals exact .absent rfl

theorem not_sound : not.Sound where
  scalar := by decide
  ends := by
    rintro (_ | ⟨_ | v, _ | ⟨_, _⟩⟩)
    case cons.some.nil =>
      obtain ⟨b, rfl⟩ | ⟨hv, hb⟩ := expectBool_cases "not" v
      · exact .present rfl rfl
      · refine .mismatch _ (by simp only [not, hb]; rfl) rfl ?_
        simp [not, hv]
    all_goals exact .absent rfl

theorem booleanEquals_sound : booleanEquals.Sound where
  scalar := by decide
  ends := by
    intro args
    by_cases h : ∃ a b, args = [some (.bool a), some (.bool b)]
    · obtain ⟨a, b, rfl⟩ := h
      exact .present rfl rfl
    · refine .absent ?_
      simp only [booleanEquals]
      split
      · simp_all
      · rfl

theorem stringEquals_sound : stringEquals.Sound where
  scalar := by decide
  ends := by
    intro args
    by_cases h : ∃ a b, args = [some (.string a), some (.string b)]
    · obtain ⟨a, b, rfl⟩ := h
      exact .present rfl rfl
    · refine .absent ?_
      simp only [stringEquals]
      split
      · simp_all
      · rfl

/-! The answer for a path that is text. -/

section
variable {target : Value} {path : Text}

private theorem getAttr_body : getAttr.body [some target, some (.string path)] = (do
    match ← (AttrPath.read path).mapError EvalError.breakdown with
    | none => throw (.malformedPath path)
    | some steps => return AttrPath.follow (some target) steps) := rfl

theorem getAttr_of_unreadable {b : Breakdown} (h : AttrPath.read path = .error b) :
    getAttr.body [some target, some (.string path)] = .error (.breakdown b) := by
  rw [getAttr_body, h]
  rfl

theorem getAttr_of_malformed (h : AttrPath.read path = .ok none) :
    getAttr.body [some target, some (.string path)] = .error (.malformedPath path) := by
  rw [getAttr_body, h]
  rfl

theorem getAttr_of_read {steps : List AttrStep} (h : AttrPath.read path = .ok (some steps)) :
    getAttr.body [some target, some (.string path)] =
      .ok (AttrPath.follow (some target) steps) := by
  rw [getAttr_body, h]
  rfl

end

private theorem getAttr_sound : getAttr.Sound where
  scalar := by decide
  ends := by
    rintro (_ | ⟨_ | target, _ | ⟨_ | path, _ | ⟨_, _⟩⟩⟩)
    case cons.some.cons.some.nil =>
      obtain ⟨s, rfl⟩ | ⟨hv, hs⟩ := expectText_cases "getAttr" path
      · rcases hp : AttrPath.read s with b | _ | steps
        · obtain ⟨n, -, rfl, -⟩ := AttrPath.read_error hp
          exact .breakdown _ (getAttr_of_unreadable hp) rfl
        · exact .refusal (.malformedPath s) (getAttr_of_malformed hp) rfl
        · exact .answer _ (getAttr_of_read hp) (Ty.any_admits _)
      · refine .mismatch _ (by simp only [getAttr, hs]; rfl) rfl ?_
        simp [getAttr, hv]
    all_goals exact .absent rfl

theorem substring_sound : substring.Sound where
  scalar := by decide
  ends := by
    rintro (_ | ⟨_ | s, _ | ⟨_ | start, _ | ⟨_ | stop, _ | ⟨_ | fromEnd, _ | ⟨_, _⟩⟩⟩⟩⟩)
    case cons.some.cons.some.cons.some.cons.some.nil =>
      obtain ⟨s, rfl⟩ | ⟨hv, hs⟩ := expectText_cases "substring" s
      · obtain ⟨m, rfl⟩ | ⟨hv, hs⟩ := expectInt_cases "substring" start
        · obtain ⟨n, rfl⟩ | ⟨hv, hs⟩ := expectInt_cases "substring" stop
          · obtain ⟨b, rfl⟩ | ⟨hv, hs⟩ := expectBool_cases "substring" fromEnd
            · refine .answer _ rfl ?_
              intro w hw
              obtain ⟨cs, -, rfl⟩ := Option.map_eq_some_iff.mp hw
              rfl
            · exact .mismatch _ (by simp only [substring, hs]; rfl) rfl (by simp [substring, hv])
          · exact .mismatch _ (by simp only [substring, hs]; rfl) rfl (by simp [substring, hv])
        · exact .mismatch _ (by simp only [substring, hs]; rfl) rfl (by simp [substring, hv])
      · exact .mismatch _ (by simp only [substring, hs]; rfl) rfl (by simp [substring, hv])
    all_goals exact .absent rfl

private theorem uriEncode_body (s : Text) : uriEncode.body [some (.string s)] =
    (do return some (.string (← (Uri.encode s).mapError .breakdown))) := rfl

private theorem uriEncode_of_encoded {s encoded : Text} (h : Uri.encode s = .ok encoded) :
    uriEncode.body [some (.string s)] = .ok (some (.string encoded)) := by
  rw [uriEncode_body, h]
  rfl

private theorem uriEncode_of_unencodable {s : Text} {b : Breakdown} (h : Uri.encode s = .error b) :
    uriEncode.body [some (.string s)] = .error (.breakdown b) := by
  rw [uriEncode_body, h]
  rfl

theorem uriEncode_sound : uriEncode.Sound where
  scalar := by decide
  ends := by
    rintro (_ | ⟨_ | s, _ | ⟨_, _⟩⟩)
    case cons.some.nil =>
      obtain ⟨s, rfl⟩ | ⟨hv, hs⟩ := expectText_cases "uriEncode" s
      · cases hencode : Uri.encode s with
        | ok encoded => exact .present (uriEncode_of_encoded hencode) rfl
        | error b =>
          obtain ⟨_, first, _, -, rfl⟩ := Uri.unencodable_of_encode hencode
          exact .breakdown _ (uriEncode_of_unencodable hencode) rfl
      · exact .mismatch _ (by simp only [uriEncode, hs]; rfl) rfl (by simp [uriEncode, hv])
    all_goals exact .absent rfl

theorem isValidHostLabel_sound : isValidHostLabel.Sound where
  scalar := by decide
  ends := by
    rintro (_ | ⟨_ | s, _ | ⟨_ | allow, _ | ⟨_, _⟩⟩⟩)
    case cons.some.cons.some.nil =>
      obtain ⟨s, rfl⟩ | ⟨hv, hs⟩ := expectText_cases "isValidHostLabel" s
      · obtain ⟨b, rfl⟩ | ⟨hv, hs⟩ := expectBool_cases "isValidHostLabel" allow
        · exact .present rfl rfl
        · exact .mismatch _ (by simp only [isValidHostLabel, hs]; rfl) rfl
            (by simp [isValidHostLabel, hv])
      · exact .mismatch _ (by simp only [isValidHostLabel, hs]; rfl) rfl
          (by simp [isValidHostLabel, hv])
    all_goals exact .absent rfl

private theorem parseURL_sound : parseURL.Sound where
  scalar := by decide
  ends := by
    rintro (_ | ⟨_ | s, _ | ⟨_, _⟩⟩)
    case cons.some.nil =>
      obtain ⟨s, rfl⟩ | ⟨hv, hs⟩ := expectText_cases "parseURL" s
      · refine .answer _ rfl ?_
        intro w hw
        obtain ⟨url, -, rfl⟩ := Option.map_eq_some_iff.mp hw
        rfl
      · exact .mismatch _ (by simp only [parseURL, hs]; rfl) rfl (by simp [parseURL, hv])
    all_goals exact .absent rfl

private theorem parseArn_sound : parseArn.Sound where
  scalar := by decide
  ends := by
    rintro (_ | ⟨_ | s, _ | ⟨_, _⟩⟩)
    case cons.some.nil =>
      obtain ⟨s, rfl⟩ | ⟨hv, hs⟩ := expectText_cases "aws.parseArn" s
      · refine .answer _ rfl ?_
        intro w hw
        obtain ⟨arn, -, rfl⟩ := Option.map_eq_some_iff.mp hw
        rfl
      · exact .mismatch _ (by simp only [parseArn, hs]; rfl) rfl (by simp [parseArn, hv])
    all_goals exact .absent rfl

theorem isVirtualHostableBucket_sound : isVirtualHostableBucket.Sound where
  scalar := by decide
  ends := by
    rintro (_ | ⟨_ | s, _ | ⟨_ | allow, _ | ⟨_, _⟩⟩⟩)
    case cons.some.cons.some.nil =>
      obtain ⟨s, rfl⟩ | ⟨hv, hs⟩ := expectText_cases "aws.isVirtualHostableS3Bucket" s
      · obtain ⟨b, rfl⟩ | ⟨hv, hs⟩ := expectBool_cases "aws.isVirtualHostableS3Bucket" allow
        · exact .present rfl rfl
        · exact .mismatch _ (by simp only [isVirtualHostableBucket, hs]; rfl) rfl
            (by simp [isVirtualHostableBucket, hv])
      · exact .mismatch _ (by simp only [isVirtualHostableBucket, hs]; rfl) rfl
          (by simp [isVirtualHostableBucket, hv])
    all_goals exact .absent rfl

end Function

namespace Registry

/-- Every function of a registry keeps to its declaration. -/
def Sound (r : Registry) : Prop := ∀ f ∈ r.functions, f.Sound

theorem standard_sound : standard.Sound := by
  simp only [Sound, standard, core, List.forall_mem_append, List.forall_mem_cons]
  exact ⟨⟨Function.isSet_sound, Function.not_sound, Function.booleanEquals_sound,
    Function.stringEquals_sound, Function.getAttr_sound, Function.substring_sound,
    Function.uriEncode_sound, Function.isValidHostLabel_sound, Function.parseURL_sound, by simp⟩,
    Function.parseArn_sound, Function.isVirtualHostableBucket_sound, by simp⟩

variable {r : Registry} {name : Name}

theorem getFor_ok_iff {count : Nat} {f : Function} :
    r.getFor name count = .ok f ↔
      ∃ s, name = .text s ∧ r.find? s = some f ∧ f.params.length = count := by
  constructor
  · intro h
    obtain ⟨g, hg, h⟩ := Outcome.bind_ok_iff.mp h
    split at h
    · next hcount =>
      cases h
      cases name with
      | text s =>
        cases hfind : r.find? s with
        | none => simp [get, hfind] at hg
        | some found =>
          simp only [get, hfind] at hg
          cases hg
          exact ⟨s, rfl, hfind, hcount⟩
      | other given =>
        simp only [get] at hg
        split at hg <;> cases hg
    · cases h
  · rintro ⟨s, rfl, hfind, hcount⟩
    have hget : r.get (.text s) = .ok f := by simp [get, hfind]
    rw [getFor, hget]
    exact if_pos hcount

/-- Arguments are checked without an error when they may all stand in their places. -/
private theorem checkArguments_ok_iff {text : Text} {position : Nat} {expected got : List Ty}
    (hl : expected.length = got.length) : checkArguments text position expected got = .ok () ↔
      List.Forall₂ (fun e g => e.assignable g = true) expected got := by
  induction expected generalizing got position with
  | nil =>
    cases got with
    | nil => simp [checkArguments]
    | cons g got => cases hl
  | cons e expected ih =>
    cases got with
    | nil => cases hl
    | cons g got =>
      rw [checkArguments, List.forall₂_cons]
      split
      · next ha => rw [ih (Nat.succ.inj hl), and_iff_right ha]
      · next ha => simp [ha]

/-- A call is checked without an error when its function is registered and takes the arguments. -/
theorem checkCall_ok_iff {types : List Ty} {type : Ty} :
    r.checkCall name types = .ok type ↔
      ∃ s f, name = .text s ∧ r.find? s = some f ∧ f.returns = type ∧
        List.Forall₂ (fun e g => e.assignable g = true) f.params types := by
  constructor
  · intro h
    obtain ⟨f, hf, h⟩ := Outcome.bind_ok_iff.mp h
    obtain ⟨_, harguments, h⟩ := Outcome.bind_ok_iff.mp h
    obtain ⟨s, hs, hfind, hlength⟩ := getFor_ok_iff.mp hf
    exact ⟨s, f, hs, hfind, Except.ok.inj h, (checkArguments_ok_iff hlength).mp harguments⟩
  · rintro ⟨s, f, hs, hfind, rfl, hall⟩
    have hf : r.getFor name types.length = .ok f :=
      getFor_ok_iff.mpr ⟨s, hs, hfind, hall.length_eq⟩
    rw [checkCall, hf]
    exact Outcome.bind_ok_iff.mpr
      ⟨f, rfl, Outcome.bind_ok_iff.mpr ⟨(), (checkArguments_ok_iff hall.length_eq).mpr hall, rfl⟩⟩

/-- A call that was checked applies one function to as many arguments as it takes. -/
theorem call_of_checkCall {types : List Ty} {type : Ty} (h : r.checkCall name types = .ok type) :
    ∃ f ∈ r.functions, f.returns = type ∧
      List.Forall₂ (fun e g => e.assignable g = true) f.params types ∧
      ∀ args : List (Option Value), args.length = types.length →
        r.call name args = f.body args := by
  obtain ⟨s, f, rfl, hfind, hreturns, hall⟩ := checkCall_ok_iff.mp h
  refine ⟨f, List.mem_of_find?_eq_some hfind, hreturns, hall, fun args hargs => ?_⟩
  have hf : r.getFor (.text s) args.length = .ok f :=
    getFor_ok_iff.mpr ⟨s, rfl, hfind, hall.length_eq.trans hargs.symm⟩
  rw [call, hf]
  rfl

end Registry
end EndpointRules
