import EndpointRules.Proofs.Document.Loading
import EndpointRules.Proofs.Json.Closing

/-! Repeated keys in the text of a rule set. A text that can be read is refused for a repeated key
exactly when some object in it has a key twice, also where the loader would not look; any other text
is loaded like the document in it. Nothing else can be taken for this refusal: it is reported at the
root of the document, where loading reports only that the document is no object. -/

namespace EndpointRules

/-! Defects below the root of a document. -/

private theorem Diagnostics.head?_foldl_joinSegment {segment : Text} {first : CodePoint}
    (h : segment.toList.head? = some first) (rest : List Text) :
    (rest.foldl joinSegment segment).toList.head? = some first := by
  induction rest generalizing segment with
  | nil => exact h
  | cons other rest ih =>
    apply ih
    unfold joinSegment
    split <;> simp [Text.toList_append, List.head?_append, h]

/-- What is found in a part has a path that begins with the name of the part. -/
private theorem Finding.path_ne_root {segment : Text}
    (hs : segment.toList.head?.any (· ≠ .char '$') = true)
    {found : List Finding} : ∀ f ∈ found.map (under segment), (f.seenFrom []).path ≠ "$" := by
  obtain ⟨first, hfirst, hne⟩ := (Option.any_eq_true _ _).mp hs
  intro f hf hroot
  obtain ⟨g, -, rfl⟩ := List.mem_map.mp hf
  have hhead := Diagnostics.head?_foldl_joinSegment hfirst g.below
  have hpath : g.below.foldl Diagnostics.joinSegment segment = "$" := hroot
  rw [hpath] at hhead
  exact of_decide_eq_true hne (Option.some.inj hhead).symm

namespace Report
variable {α β : Type} {look : Report α} {next : α → Report β}

/-- A look that reports no defect of a whole document at its root. -/
def BelowRoot (look : Report α) : Prop :=
  ∃ found, look.Finds look.answer found ∧ ∀ f ∈ found, (f.seenFrom []).path ≠ "$"

private theorem belowRoot_pure (a : α) :
    (pure a : Report α).BelowRoot := ⟨[], finds_pure a, by simp⟩

private theorem BelowRoot.bind (h : look.BelowRoot) (hn : ∀ a, (next a).BelowRoot) :
    (look >>= next).BelowRoot := by
  obtain ⟨found, hfound, hpaths⟩ := h
  obtain ⟨later, hlater, hlaterPaths⟩ := hn look.answer
  have hboth := hfound.bind hlater
  exact ⟨found ++ later, hboth.answer_eq ▸ hboth,
    List.forall_mem_append.mpr ⟨hpaths, hlaterPaths⟩⟩

private theorem Regular.belowRoot_within (h : look.Regular) {segment : Text}
    (hs : segment.toList.head?.any (· ≠ .char '$') = true) :
    (Report.within segment look).BelowRoot := by
  obtain ⟨found, hfound⟩ := h
  have hwithin := hfound.within segment
  exact ⟨_, hwithin.answer_eq ▸ hwithin, Finding.path_ne_root hs⟩

private theorem BelowRoot.path_ne (h : look.BelowRoot) {d : Diagnostic} (hd : d ∈ look.errors) :
    d.path ≠ "$" := by
  obtain ⟨found, hfound, hpaths⟩ := h
  rw [errors, hfound Diagnostics.empty] at hd
  obtain ⟨f, hf, rfl⟩ := List.mem_map.mp hd
  exact hpaths f hf

end Report

namespace Inspection
variable {α β : Type} {look : Inspection α} {next : α → Inspection β} {cause : Breakdown → Prop}

/-- A look that reports no defect of a whole document at its root, or is broken off. -/
def BelowRoot (look : Inspection α) : Prop :=
  (∃ a found, look.Finds a found ∧ ∀ f ∈ found, (f.seenFrom []).path ≠ "$") ∨
    ∃ b, look.Breaks b

private theorem belowRoot_pure (a : α) : (pure a : Inspection α).BelowRoot :=
  .inl ⟨a, [], finds_pure a, List.forall_mem_nil _⟩

private theorem BelowRoot.bind (h : look.BelowRoot) (hn : ∀ a, (next a).BelowRoot) :
    (look >>= next).BelowRoot := by
  obtain ⟨a, found, hfound, hpaths⟩ | ⟨b, hbreaks⟩ := h
  · obtain ⟨answer, later, hlater, hlaterPaths⟩ | ⟨b, hbreaks⟩ := hn a
    · exact .inl ⟨answer, _, hfound.bind hlater,
        List.forall_mem_append.mpr ⟨hpaths, hlaterPaths⟩⟩
    · exact .inr ⟨b, hfound.bind_breaks hbreaks⟩
  · exact .inr ⟨b, hbreaks.bind next⟩

private theorem Regular.belowRoot_within (h : look.Regular cause) {segment : Text}
    (hs : segment.toList.head?.any (· ≠ .char '$') = true) :
    (Inspection.within segment look).BelowRoot := by
  obtain ⟨a, found, hfound⟩ | ⟨b, hbreaks, -⟩ := h
  · exact .inl ⟨a, _, hfound.within segment, Finding.path_ne_root hs⟩
  · exact .inr ⟨b, hbreaks.within segment⟩

private theorem BelowRoot.path_ne (h : look.BelowRoot) {errors : List Diagnostic}
    (herrors : look.errors = .ok errors) : ∀ d ∈ errors, d.path ≠ "$" := by
  obtain ⟨a, found, hfound, hpaths⟩ | ⟨b, hbreaks⟩ := h
  · obtain rfl := Except.ok.inj (hfound.errors_eq.symm.trans herrors)
    intro d hd
    obtain ⟨f, hf, rfl⟩ := List.mem_map.mp hd
    exact hpaths f hf
  · cases hbreaks.errors_eq.symm.trans herrors

end Inspection

private theorem any_head?_rulesSegment (index : ℕ) :
    (Text.indexed "rules" index).toList.head?.any (· ≠ .char '$') = true := by
  simp [Text.indexed]

namespace Document
open Inspection
variable {r : Registry}

private theorem belowRoot_validateRules (index : ℕ) (rules : List Json) :
    (validateRules r index rules).BelowRoot := by
  induction rules generalizing index with
  | nil =>
    unfold validateRules
    exact belowRoot_pure ()
  | cons rule rest ih =>
    unfold validateRules
    exact ((regular_validateRule rule).belowRoot_within (any_head?_rulesSegment index)).bind
      fun _ => ih (index + 1)

private theorem belowRoot_validateTopRules (rules : Json) :
    (validateTopRules r rules).BelowRoot := by
  unfold validateTopRules
  split
  · exact belowRoot_validateRules _ _
  · have hdefect (value : Json) : (Inspection.defect
        "Rule set must have a non-empty 'rules' array" value).Regular fun _ => False :=
      regular_defect _ value
    exact (hdefect _).belowRoot_within rfl

/-- A document is found to be no object, or what is wrong with it is wrong with one of its parts. -/
private theorem validateRuleSet_cases (document : Json) :
    (validateRuleSet r document).errors =
        .ok [.ofDocument "Rule set must be an object" document] ∨
      (validateRuleSet r document).BelowRoot := by
  cases document with
  | obj fields =>
    have hversion (value : Json) : (Inspection.require value.isString
        "Rule set must have a 'version' string" value).Regular fun _ => False :=
      regular_require _ _ _
    rw [validateRuleSet_obj]
    exact .inr <| ((hversion _).belowRoot_within rfl).bind fun _ =>
      ((regular_validateDeclarations _).belowRoot_within rfl).bind fun _ =>
        belowRoot_validateTopRules _
  | _ => exact .inl rfl

end Document

private theorem Rule.belowRoot_checkRules {r : Registry} (scope : TyEnv) (index : ℕ)
    (rules : List Rule) :
    (checkRules r scope index rules).BelowRoot := by
  induction rules generalizing index with
  | nil => exact Report.belowRoot_pure ()
  | cons rule rest ih =>
    exact ((regular_check scope rule).belowRoot_within (any_head?_rulesSegment index)).bind
      fun _ => ih (index + 1)

namespace RuleSet
open Document Outcome
variable {r : Registry} {key : Text} {d : Json}

private theorem belowRoot_check (rs : RuleSet) : (rs.check r).BelowRoot :=
  (Report.belowRoot_pure _).bind fun scope => Rule.belowRoot_checkRules scope 0 rs.rules

/-- The refusal of a text for a key that an object in it has twice. -/
def repeatedKey (key : Text) : LoadError :=
  .schema [.ofDocument ("Duplicate key: " ++ Text.quoted key) (.str key)]

private theorem repeatedKey_inj {other : Text} (h : repeatedKey key = repeatedKey other) :
    key = other := by
  simp only [repeatedKey, Diagnostic.ofDocument, LoadError.schema.injEq, List.cons.injEq,
    Diagnostic.mk.injEq, Json.str.injEq] at h
  exact h.1.2.2

private theorem refuse_ne_repeatedKey {errors : List Diagnostic} (h : ∀ d ∈ errors, d.path ≠ "$") :
    refuse errors ≠ .error (repeatedKey key) := by
  unfold refuse
  split
  · nofun
  · intro hrefused
    obtain rfl := LoadError.schema.inj (Except.error.inj hrefused)
    exact h _ List.mem_cons_self rfl

private theorem structure_ne_repeatedKey {document : Json} {errors : List Diagnostic}
    (h : structureErrors r document = .ok errors) : refuse errors ≠ .error (repeatedKey key) := by
  have herrors := mapError_ok_iff.mp h
  rcases validateRuleSet_cases (r := r) document with hobject | hbelow
  · obtain rfl := Except.ok.inj (hobject.symm.trans herrors)
    intro hrefused
    have hsame := LoadError.schema.inj (Except.error.inj hrefused)
    have hmessage : "Rule set must be an object" = "Duplicate key: " ++ Text.quoted key :=
      congrArg Diagnostic.message (List.head_eq_of_cons_eq hsame)
    have hhead := congrArg (fun message : Text => message.toList.head?) hmessage
    simp [Text.toList_append] at hhead
  · exact refuse_ne_repeatedKey (hbelow.path_ne herrors)

private theorem analyze_ne_repeatedKey (rs : RuleSet) :
    analyze r rs ≠ .error (repeatedKey key) := by
  unfold analyze
  split
  · nofun
  · exact refuse_ne_repeatedKey fun d hd => (belowRoot_check rs).path_ne hd

/-- Loading a document never ends in the refusal for a repeated key. -/
private theorem load_ne_repeatedKey (document : Json) :
    load r document ≠ .error (repeatedKey key) := by
  intro h
  rcases bind_error_iff.mp h with hstructure | ⟨errors, hstructure, h⟩
  · obtain ⟨_, -, hbroken⟩ := mapError_error_iff.mp hstructure
    cases hbroken
  rcases bind_error_iff.mp h with hrefused | ⟨_, -, h⟩
  · exact structure_ne_repeatedKey hstructure hrefused
  rcases bind_error_iff.mp h with hbuild | ⟨rs, -, h⟩
  · obtain ⟨_, -, herror⟩ := mapError_error_iff.mp hbuild
    cases herror
  rcases bind_error_iff.mp h with hanalysis | ⟨_, -, h⟩
  · exact analyze_ne_repeatedKey rs hanalysis
  · cases h

private theorem loadNoted_ne_repeatedKey (document : Json) :
    (loadNoted r document).outcome ≠ .error (repeatedKey key) := by
  intro h
  rcases Noted.bind_error_iff.mp h with hload | ⟨_, -, h⟩
  · exact load_ne_repeatedKey document hload
  · cases h

/-- The document in a text that can be read is the datum in it, with all members in their order,
or the text is refused for a key that an object in it has twice. -/
private theorem document_of_parseWhole {text : Text} (h : Json.parseWhole text.toList = .ok d) :
    (document text = .ok d ∧ d.Distinct) ∨
      ∃ key, document text = .error (repeatedKey key) ∧ d.Repeats key := by
  unfold document
  rcases Json.parseDistinct_of_parseWhole h with ⟨hok, hdistinct⟩ | ⟨key, herror, hkey⟩
  · rw [hok]
    exact .inl ⟨rfl, hdistinct⟩
  · rw [herror]
    exact .inr ⟨key, rfl, hkey⟩

/-- A text that can be read is refused for a repeated key exactly when some object in it, wherever
it is, has a key twice, and then for such a key. Otherwise the datum that is read has all members in
their order, and the text is loaded like it. -/
theorem loadText_repeatedKey_iff {text : Text} {parsed : Json}
    (h : Json.parse text.toList = .ok parsed) (r : Registry) :
    ∃ d, Json.parseWhole text.toList = .ok d ∧
      ((∃ key, (loadText r text).outcome = .error (repeatedKey key)) ↔ ∃ key, d.Repeats key) ∧
      (∀ key, (loadText r text).outcome = .error (repeatedKey key) → d.Repeats key) ∧
      ((∀ key, ¬ d.Repeats key) → parsed = d ∧ loadText r text = loadNoted r parsed) := by
  obtain ⟨d, hd⟩ := Json.exists_parseWhole h
  refine ⟨d, hd, ?_⟩
  rcases document_of_parseWhole hd with ⟨hok, hdistinct⟩ | ⟨key, herror, hkey⟩
  · obtain rfl := Except.ok.inj (h.symm.trans (Json.parse_of_distinct hd hdistinct))
    have hload : loadText r text = loadNoted r parsed := by
      unfold loadText
      rw [hok]
      rfl
    have hne (key : Text) : (loadText r text).outcome ≠ .error (repeatedKey key) :=
      hload ▸ loadNoted_ne_repeatedKey parsed
    refine ⟨⟨fun ⟨key, hrefused⟩ => absurd hrefused (hne key), fun ⟨key, hkey⟩ => ?_⟩,
      fun key hrefused => absurd hrefused (hne key), fun _ => ⟨rfl, hload⟩⟩
    exact absurd hkey hdistinct.not_repeats
  · have hrefused : (loadText r text).outcome = .error (repeatedKey key) :=
      Noted.outcome_bind_of_error herror
    refine ⟨⟨fun _ => ⟨key, hkey⟩, fun _ => ⟨key, hrefused⟩⟩, fun other hother => ?_,
      fun hnone => absurd hkey (hnone key)⟩
    obtain rfl := repeatedKey_inj (Except.error.inj (hrefused.symm.trans hother))
    exact hkey

/-- One key spelled in two ways, in a member that loading does not read. -/
def respelledText : Text := "\x7b\"notes\":[\x7b\"a\":true,\"\\u0061\":null\x7d]\x7d"

def respelled : Json := .obj [("notes", .arr [.obj [("a", .bool true), ("a", .null)]])]

private theorem repeats_respelled : respelled.Repeats "a" := by
  refine .member List.mem_cons_self (.item List.mem_cons_self (.here ?_))
  exact .cons_mem List.mem_cons_self

theorem loadText_repeatedKey_iff_respelled :
    Json.parse respelledText.toList = .ok (.obj [("notes", .arr [.obj [("a", .null)]])]) ∧
      ∃ key, (loadText .standard respelledText).outcome = .error (repeatedKey key) := by
  have hparse : Json.parse respelledText.toList =
      .ok (.obj [("notes", .arr [.obj [("a", .null)]])]) := by decide +kernel
  have hwhole : Json.parseWhole respelledText.toList = .ok respelled := by decide +kernel
  obtain ⟨d, hd, hrefused, -⟩ := loadText_repeatedKey_iff hparse .standard
  obtain rfl := Except.ok.inj (hwhole.symm.trans hd)
  exact ⟨hparse, hrefused.mpr ⟨"a", repeats_respelled⟩⟩

end RuleSet
end EndpointRules
