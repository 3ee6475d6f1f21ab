import EndpointRules.CommandLine.Assignments
import EndpointRules.Proofs.Binding.Stability
import EndpointRules.Proofs.Conversion
import EndpointRules.Proofs.Json.Reading
import EndpointRules.Proofs.Text.Classes
import EndpointRules.Proofs.Text.Pieces

/-! Assignments on the command line. A text either stands for a value of the type that its parameter
declares or is refused when it is read, unless it is JSON with a whole number that is too long. What
has been read can be bound: the binding fails only where a required parameter is left out. -/

namespace EndpointRules

namespace CommandLine
open Outcome
variable {text : Text} {b : Bool}

/-! Texts of truth values. -/

def truthWord (b : Bool) : Text := if b then "true" else "false"

/-- A text is a truth value between blanks, in letters of either case. -/
def SpellsTruth (text : Text) (b : Bool) : Prop :=
  ∃ front word back, text.toList = front ++ word ++ back ∧
    (∀ c ∈ front ++ back, Text.isBlank c = true) ∧ Text.lowerAscii word = (truthWord b).toList

private theorem boolean?_eq_some_iff_strip : boolean? text = some b ↔
    Text.lowerAscii (Text.strip text.toList) = (truthWord b).toList := by
  rw [← Text.toList_ofList (Text.lowerAscii _), Text.toList_inj]
  unfold boolean? truthWord
  generalize Text.ofList (Text.lowerAscii (Text.strip text.toList)) = word
  by_cases htrue : word = "true"
  · subst htrue
    cases b <;> simp
  · by_cases hfalse : word = "false"
    · subst hfalse
      cases b <;> simp
    · cases b <;> simp [htrue, hfalse]

private theorem boolean?_eq_some_iff : boolean? text = some b ↔ SpellsTruth text b := by
  rw [boolean?_eq_some_iff_strip]
  constructor
  · intro h
    obtain ⟨front, back, htext, hblank⟩ := Text.strip_within text.toList
    exact ⟨front, _, back, htext, hblank, h⟩
  · rintro ⟨front, word, back, htext, hblank, hword⟩
    have hletters : ∀ c ∈ (truthWord b).toList, Text.isBlank c = false := by
      cases b <;> decide
    rwa [htext, Text.strip_of_within hblank (Text.plain_of_lowerAscii hword hletters)]

/-! What a text stands for. -/

/-- The texts of a list. They are the items of a JSON array, or else what stands between commas:
there the blanks around a piece do not count, nor does a piece of nothing but blanks. -/
inductive Lists (text : Text) : List Text → Prop
  | array {items : List Json} : Json.parse text.toList = .ok (.arr items) →
      Lists text (items.map Json.plainText)
  | pieces {pieces : List (List CodePoint)} : (∀ items, Json.parse text.toList ≠ .ok (.arr items)) →
      (∀ b, Json.parse text.toList ≠ .error (.breakdown b)) →
      Text.Joined (· = .char ',') pieces text.toList → (∀ piece ∈ pieces, .char ',' ∉ piece) →
      Lists text (((pieces.map Text.strip).filter (!·.isEmpty)).map Text.ofList)

private theorem splitOn_eq_iff {cs : List CodePoint} {pieces : List (List CodePoint)} :
    cs.splitOn (.char ',') = pieces ↔
      Text.Joined (· = .char ',') pieces cs ∧ ∀ piece ∈ pieces, .char ',' ∉ piece := by
  have hplain (piece : List CodePoint) :
      (∀ c ∈ piece, (c == .char ',') = false) ↔ .char ',' ∉ piece := by
    simp only [beq_eq_false_iff_ne, List.forall_mem_ne']
  rw [List.splitOn, Text.splitOnP_eq_iff]
  simp only [hplain, beq_iff_eq]

private theorem lists_iff {texts : List Text} : Lists text texts ↔ listTexts text = .ok texts := by
  unfold listTexts
  constructor
  · rintro (hparse | ⟨hparse, hbroken, hjoined, hplain⟩)
    · rw [hparse]
    · split
      · next hparse' => exact absurd hparse' (hparse _)
      · next hbroken' => exact absurd hbroken' (hbroken _)
      · rw [splitOn_eq_iff.mpr ⟨hjoined, hplain⟩]
  · intro h
    split at h
    · next hparse =>
      cases h
      exact .array hparse
    · cases h
    · next hparse hbroken =>
      cases h
      obtain ⟨hjoined, hplain⟩ := splitOn_eq_iff.mp rfl
      exact .pieces hparse hbroken hjoined hplain

private theorem listTexts_error_iff {cause : Breakdown} : listTexts text = .error cause ↔
    Json.parse text.toList = .error (.breakdown cause) := by
  unfold listTexts
  constructor
  · intro h
    split at h
    · cases h
    · next hparse =>
      cases h
      exact hparse
    · cases h
  · intro h
    rw [h]

/-- The value of a parameter type that a text stands for. -/
inductive Denotes : ParameterType → Text → Value → Prop
  | string (text : Text) : Denotes .string text (.string text)
  | boolean {text : Text} {b : Bool} : SpellsTruth text b → Denotes .boolean text (.bool b)
  | list {text : Text} {texts : List Text} : Lists text texts →
      Denotes .stringArray text (.list (texts.map .string))

variable {p : Parameter} {v : Value} {d : Json} {e : AssignmentError}

private theorem Denotes.accepts {type : ParameterType} (h : Denotes type text v) :
    type.accepts v = true := by
  cases h with
  | list => simp [ParameterType.accepts, ParameterType.isText]
  | _ => rfl

private theorem toJson_texts (texts : List Text) :
    (Value.list (texts.map .string)).toJson = .arr (texts.map .str) := by
  rw [Value.toJson, Value.itemsToJson_eq_map, List.map_map]
  rfl

/-- What is read from a text is the datum of the value that it stands for. -/
private theorem parseValue_ok_iff : parseValue (some p) text = .ok d ↔
    ∃ v, Denotes p.type text v ∧ d = v.toJson := by
  unfold parseValue
  dsimp only
  cases p.type with
  | string =>
    constructor
    · rintro ⟨⟩
      exact ⟨_, .string text, rfl⟩
    · rintro ⟨_, ⟨⟩, rfl⟩
      rfl
  | boolean =>
    dsimp only
    constructor
    · intro h
      split at h
      · next b hb =>
        cases h
        exact ⟨_, .boolean (boolean?_eq_some_iff.mp hb), rfl⟩
      · cases h
    · rintro ⟨_, hdenotes, rfl⟩
      cases hdenotes with
      | boolean hb => rw [boolean?_eq_some_iff.mpr hb, Value.toJson]
  | stringArray =>
    dsimp only
    rw [map_ok_iff]
    simp only [mapError_ok_iff]
    constructor
    · rintro ⟨texts, htexts, rfl⟩
      exact ⟨_, .list (lists_iff.mpr htexts), (toJson_texts _).symm⟩
    · rintro ⟨_, hdenotes, rfl⟩
      cases hdenotes with
      | list hlists => exact ⟨_, lists_iff.mp hlists, (toJson_texts _).symm⟩

/-- Truth values can be spelled wrong, and a list may be JSON that is too long to be read. -/
private theorem parseValue_error_iff : parseValue (some p) text = .error e ↔
    (p.type = .boolean ∧ (∀ b, ¬ SpellsTruth text b) ∧ e = .notBoolean p.name text) ∨
      p.type = .stringArray ∧ ∃ cause, Json.parse text.toList = .error (.breakdown cause) ∧
        e = .breakdown cause := by
  unfold parseValue
  dsimp only
  cases p.type with
  | string => simp
  | stringArray =>
    dsimp only
    rw [map_error_iff, mapError_error_iff]
    simp only [listTexts_error_iff, reduceCtorEq, false_and, false_or, true_and]
    exact exists_congr fun cause => and_congr_right fun _ => eq_comm
  | boolean =>
    simp only [← boolean?_eq_some_iff, true_and]
    cases boolean? text with
    | some b => simp
    | none => simp [eq_comm]

/-! Items. -/

/-- An item assigns the text behind its first equals sign to the key in front of it. -/
def Assigns (item key text : Text) : Prop :=
  item.toList = key.toList ++ .char '=' :: text.toList ∧ .char '=' ∉ key.toList

variable {rs : RuleSet} {item key : Text} {items : List Text}
  {done entries : List (Text × Json)}

private theorem assigns_iff : Assigns item key text ↔
    Text.cutAt? '=' item.toList = some (key.toList, text.toList) :=
  Text.cutAt?_eq_some_iff.symm

private theorem Assigns.unique {key' text' : Text} (h : Assigns item key text)
    (h' : Assigns item key' text') : key = key' ∧ text = text' := by
  have heq := (assigns_iff.mp h).symm.trans (assigns_iff.mp h')
  rw [Option.some.injEq, Prod.mk.injEq, Text.toList_inj, Text.toList_inj] at heq
  exact heq

private theorem exists_assigns (h : .char '=' ∈ item.toList) :
    ∃ key text, Assigns item key text := by
  cases hcut : Text.cutAt? '=' item.toList with
  | none => exact absurd h (Text.cutAt?_eq_none_iff.mp hcut)
  | some parts =>
    refine ⟨Text.ofList parts.1, Text.ofList parts.2, assigns_iff.mpr ?_⟩
    rw [hcut, Text.toList_ofList, Text.toList_ofList]

private theorem parseAssignment_of_assigns (h : Assigns item key text) :
    parseAssignment (some rs) item =
      (parseValue (rs.parameter? key) text).map fun d => (key, d) := by
  rw [parseAssignment, assigns_iff.mp h]
  dsimp only
  rw [Text.ofList_toList, Text.ofList_toList]
  rfl

private theorem parseAssignment_of_noEquals (h : .char '=' ∉ item.toList) :
    parseAssignment (some rs) item = .error (.noEquals (some item)) := by
  rw [parseAssignment, Text.cutAt?_eq_none_iff.mpr h]

private theorem parseAssignment_ok_iff : parseAssignment (some rs) item = .ok (key, d) ↔
    ∃ text, Assigns item key text ∧ parseValue (rs.parameter? key) text = .ok d := by
  constructor
  · intro h
    by_cases hequals : .char '=' ∈ item.toList
    · obtain ⟨key', text, hassigns⟩ := exists_assigns hequals
      rw [parseAssignment_of_assigns hassigns, map_ok_iff] at h
      obtain ⟨d', hd, ⟨⟩⟩ := h
      exact ⟨text, hassigns, hd⟩
    · rw [parseAssignment_of_noEquals hequals] at h
      cases h
  · rintro ⟨text, hassigns, hd⟩
    rw [parseAssignment_of_assigns hassigns, hd]
    rfl

private theorem parameter?_eq_some_iff (hn : (rs.parameters.map Parameter.name).Nodup) :
    rs.parameter? key = some p ↔ p ∈ rs.parameters ∧ p.name = key := by
  have hfound {q : Parameter} (hq : rs.parameter? key = some q) :
      q ∈ rs.parameters ∧ q.name = key :=
    ⟨List.mem_of_find?_eq_some hq, by simpa using List.find?_some hq⟩
  refine ⟨hfound, fun ⟨hp, hname⟩ => ?_⟩
  cases hq : rs.parameter? key with
  | none => exact absurd hname (by simpa using List.find?_eq_none.mp hq p hp)
  | some q =>
    obtain ⟨hmem, hname'⟩ := hfound hq
    rw [List.inj_on_of_nodup_map hn hmem hp (hname'.trans hname.symm)]

/-- Why an item is refused: it has no equals sign, it gives a truth value that is not spelled as
one, or it gives a list in JSON that breaks down. -/
inductive Fault (rs : RuleSet) (item : Text) : AssignmentError → Prop
  | noEquals : .char '=' ∉ item.toList → Fault rs item (.noEquals (some item))
  | notBoolean {p : Parameter} {text : Text} : p ∈ rs.parameters → p.type = .boolean →
      Assigns item p.name text → (∀ b, ¬ SpellsTruth text b) →
      Fault rs item (.notBoolean p.name text)
  | unreadable {p : Parameter} {text : Text} {cause : Breakdown} : p ∈ rs.parameters →
      p.type = .stringArray → Assigns item p.name text →
      Json.parse text.toList = .error (.breakdown cause) → Fault rs item (.breakdown cause)

private theorem fault_iff (hn : (rs.parameters.map Parameter.name).Nodup) :
    parseAssignment (some rs) item = .error e ↔ Fault rs item e := by
  constructor
  · intro h
    by_cases hequals : .char '=' ∈ item.toList
    · obtain ⟨key, text, hassigns⟩ := exists_assigns hequals
      rw [parseAssignment_of_assigns hassigns] at h
      cases hp : rs.parameter? key with
      | none =>
        rw [hp] at h
        cases h
      | some p =>
        obtain ⟨hmem, rfl⟩ := (parameter?_eq_some_iff hn).mp hp
        rw [hp, map_error_iff] at h
        obtain ⟨htype, hspells, rfl⟩ | ⟨htype, cause, hparse, rfl⟩ := parseValue_error_iff.mp h
        · exact .notBoolean hmem htype hassigns hspells
        · exact .unreadable hmem htype hassigns hparse
    · cases (parseAssignment_of_noEquals hequals).symm.trans h
      exact .noEquals hequals
  · rintro (hequals | ⟨hmem, htype, hassigns, hspells⟩ | ⟨hmem, htype, hassigns, hparse⟩)
    · exact parseAssignment_of_noEquals hequals
    · rw [parseAssignment_of_assigns hassigns, (parameter?_eq_some_iff hn).mpr ⟨hmem, rfl⟩,
        parseValue_error_iff.mpr (.inl ⟨htype, hspells, rfl⟩)]
      rfl
    · rw [parseAssignment_of_assigns hassigns, (parameter?_eq_some_iff hn).mpr ⟨hmem, rfl⟩,
        parseValue_error_iff.mpr (.inr ⟨htype, _, hparse, rfl⟩)]
      rfl

/-! Runs over all items. -/

/-- The fault of the first item that has one. -/
inductive FirstFault (rs : RuleSet) : List Text → AssignmentError → Prop
  | here {item : Text} {rest : List Text} {e : AssignmentError} :
      Fault rs item e → FirstFault rs (item :: rest) e
  | later {item : Text} {rest : List Text} {e : AssignmentError} :
      (∀ e', ¬ Fault rs item e') → FirstFault rs rest e → FirstFault rs (item :: rest) e

private theorem exists_firstFault_iff :
    (∃ e, FirstFault rs items e) ↔ ∃ item ∈ items, ∃ e, Fault rs item e := by
  constructor
  · rintro ⟨e, h⟩
    induction h with
    | here h => exact ⟨_, List.mem_cons_self, _, h⟩
    | later _ _ ih =>
      obtain ⟨item, hitem, hfault⟩ := ih
      exact ⟨item, List.mem_cons_of_mem _ hitem, hfault⟩
  · intro h
    induction items with
    | nil =>
      obtain ⟨_, ⟨⟩, _⟩ := h
    | cons item rest ih =>
      by_cases hfirst : ∃ e, Fault rs item e
      · obtain ⟨e, hfirst⟩ := hfirst
        exact ⟨e, .here hfirst⟩
      · obtain ⟨later, hlater, hfault⟩ := h
        rcases List.mem_cons.mp hlater with rfl | hrest
        · exact absurd hfault hfirst
        · obtain ⟨e, hfirstOfRest⟩ := ih ⟨later, hrest, hfault⟩
          exact ⟨e, .later (not_exists.mp hfirst) hfirstOfRest⟩

/-- The items are refused for the first fault among them, whatever has been read before. -/
private theorem assignAll_error_iff (hn : (rs.parameters.map Parameter.name).Nodup) :
    assignAll (some rs) done items = .error e ↔ FirstFault rs items e := by
  induction items generalizing done with
  | nil =>
    constructor
    · rintro ⟨⟩
    · rintro ⟨⟩
  | cons item rest ih =>
    rw [assignAll, bind_error_iff, fault_iff hn]
    constructor
    · rintro (hfirst | ⟨⟨key, d⟩, hread, hrest⟩)
      · exact .here hfirst
      · refine .later (fun e' hfault => ?_) (ih.mp hrest)
        cases hread.symm.trans ((fault_iff hn).mpr hfault)
    · rintro (hfirst | ⟨hnone, hrest⟩)
      · exact .inl hfirst
      · right
        cases hread : parseAssignment (some rs) item with
        | ok entry => exact ⟨entry, rfl, ih.mpr hrest⟩
        | error e' => exact absurd ((fault_iff hn).mp hread) (hnone e')

/-- The text that the last item for a key assigns to it. -/
inductive LastAssigned (key text : Text) : List Text → Prop
  | last {item : Text} {rest : List Text} : Assigns item key text →
      (∀ later ∈ rest, ∀ text', ¬ Assigns later key text') → LastAssigned key text (item :: rest)
  | before {item : Text} {rest : List Text} : LastAssigned key text rest →
      LastAssigned key text (item :: rest)

private theorem LastAssigned.exists_assigns (h : LastAssigned key text items) :
    ∃ item ∈ items, Assigns item key text := by
  induction h with
  | last h => exact ⟨_, List.mem_cons_self, h⟩
  | before _ ih =>
    obtain ⟨item, hitem, hassigns⟩ := ih
    exact ⟨item, List.mem_cons_of_mem _ hitem, hassigns⟩

/-- The last text of a key is what is kept for it; what was there before the items is kept for keys
that no item assigns. -/
private theorem get?_assignAll (h : assignAll (some rs) done items = .ok entries) (key : Text)
    (d : Json) :
    Fields.get? key entries = some d ↔
      (∃ text, LastAssigned key text items ∧ parseValue (rs.parameter? key) text = .ok d) ∨
      (∀ item ∈ items, ∀ text, ¬ Assigns item key text) ∧ Fields.get? key done = some d := by
  induction items generalizing done with
  | nil =>
    cases h
    constructor
    · exact fun hget => .inr ⟨List.forall_mem_nil _, hget⟩
    · rintro (⟨_, ⟨⟩, _⟩ | ⟨-, hget⟩)
      exact hget
  | cons item rest ih =>
    obtain ⟨⟨key', d'⟩, hread, hrest⟩ := bind_ok_iff.mp h
    obtain ⟨text', hassigns, hvalue⟩ := parseAssignment_ok_iff.mp hread
    rw [ih hrest, Fields.get?_put]
    constructor
    · rintro (⟨text, hlast, hd⟩ | ⟨hnone, hget⟩)
      · exact .inl ⟨text, .before hlast, hd⟩
      · split at hget
        · next hkey =>
          subst hkey
          cases hget
          exact .inl ⟨text', .last hassigns hnone, hvalue⟩
        · next hkey =>
          refine .inr ⟨List.forall_mem_cons.mpr ⟨fun text hitem => ?_, hnone⟩, hget⟩
          exact hkey (hassigns.unique hitem).1
    · rintro (⟨text, ⟨hitem, hnone⟩ | hlast, hd⟩ | ⟨hnone, hget⟩)
      · obtain ⟨rfl, rfl⟩ := hassigns.unique hitem
        cases hvalue.symm.trans hd
        exact .inr ⟨hnone, if_pos rfl⟩
      · exact .inl ⟨text, hlast, hd⟩
      · obtain ⟨hfirst, hnone⟩ := List.forall_mem_cons.mp hnone
        refine .inr ⟨hnone, ?_⟩
        rw [if_neg, hget]
        rintro rfl
        exact hfirst _ hassigns

private theorem nodup_keys_assignAll (hdone : (Fields.keys done).Nodup)
    (h : assignAll (some rs) done items = .ok entries) : (Fields.keys entries).Nodup := by
  induction items generalizing done with
  | nil =>
    cases h
    exact hdone
  | cons item rest ih =>
    obtain ⟨⟨key, d⟩, -, hrest⟩ := bind_ok_iff.mp h
    exact ih (Fields.nodup_keys_put key d hdone) hrest

/-- What assignments to declared parameters give: one entry for each key, with the datum of the
value that the last text of the key stands for. -/
structure Gathers (rs : RuleSet) (items : List Text) (entries : List (Text × Json)) : Prop where
  distinct : (Fields.keys entries).Nodup
  declared : ∀ key ∈ Fields.keys entries, key ∈ rs.parameters.map Parameter.name
  last : ∀ p ∈ rs.parameters, ∀ d, Fields.get? p.name entries = some d ↔
    ∃ text v, LastAssigned p.name text items ∧ Denotes p.type text v ∧ d = v.toJson

private theorem gathers_of_parseAssignments (hn : (rs.parameters.map Parameter.name).Nodup)
    (hdeclared : ∀ item ∈ items, ∀ key text, Assigns item key text →
      key ∈ rs.parameters.map Parameter.name)
    (h : parseAssignments (some rs) items = .ok entries) : Gathers rs items entries := by
  have hget (key : Text) (d : Json) : Fields.get? key entries = some d ↔
      ∃ text, LastAssigned key text items ∧ parseValue (rs.parameter? key) text = .ok d := by
    rw [get?_assignAll h, Fields.get?]
    simp
  constructor
  case distinct =>
    have hnil : (Fields.keys ([] : List (Text × Json))).Nodup := List.nodup_nil
    exact nodup_keys_assignAll hnil h
  case declared =>
    intro key hkey
    obtain ⟨d, hd⟩ :=
      Option.isSome_iff_exists.mp ((Fields.hasKey_iff_mem_keys key entries).mpr hkey)
    obtain ⟨text, hlast, -⟩ := (hget key d).mp hd
    obtain ⟨item, hitem, hassigns⟩ := hlast.exists_assigns
    exact hdeclared item hitem key text hassigns
  case last =>
    intro p hp d
    rw [hget, (parameter?_eq_some_iff hn).mpr ⟨hp, rfl⟩]
    simp only [parseValue_ok_iff, exists_and_left]

end CommandLine

/-! Binding of data that stand for values. -/

namespace Argument

private theorem fieldsOfJson_eq_map (fields : List (Text × Json)) :
    fieldsOfJson fields = fields.map fun (name, d) => (name, ofJson d) := by
  induction fields with
  | nil => rfl
  | cons field rest ih => rw [fieldsOfJson, ih, List.map_cons]

private theorem get?_fieldsOfJson (key : Text) (fields : List (Text × Json)) :
    Fields.get? key (fieldsOfJson fields) = (Fields.get? key fields).map ofJson := by
  rw [fieldsOfJson_eq_map, Fields.get?_map]

private theorem keys_fieldsOfJson (fields : List (Text × Json)) :
    Fields.keys (fieldsOfJson fields) = Fields.keys fields := by
  rw [fieldsOfJson_eq_map, Fields.keys_map]

end Argument

namespace Parameter
variable {p : Parameter} {v : Value} {entries : List (Text × Json)}

/-- No coercion changes the datum of a value that a parameter accepts. -/
private theorem coerced_toJson (h : p.type.accepts v = true) :
    p.coerced (.ofJson v.toJson) = .ok (.ofJson v.toJson) := by
  unfold coerced
  cases htype : p.type with
  | string =>
    cases v with
    | string s => rcases p.coercion? with _ | _ | _ <;> rfl
    | _ => cases htype ▸ h
  | boolean =>
    cases v with
    | bool b => rcases p.coercion? with _ | _ | _ <;> rfl
    | _ => cases htype ▸ h
  | stringArray =>
    cases v with
    | list items => rcases p.coercion? with _ | _ | _ <;> rfl
    | _ => cases htype ▸ h

private theorem ofJson_toJson_ne_null (v : Value) : Argument.ofJson v.toJson ≠ .null := by
  cases v <;> exact Argument.noConfusion

private theorem convert_toJson (h : p.type.accepts v = true) :
    p.convert (.ofJson v.toJson) = .ok (some v) := by
  have hvalue : (Argument.ofJson v.toJson).toValue = .ok (some v) := Json.converted_toJson v
  rw [convert_of_coerced (ofJson_toJson_ne_null v) (coerced_toJson h), hvalue]
  exact if_pos h

private theorem supplied_fieldsOfJson (h : Fields.get? p.name entries = some v.toJson) :
    p.supplied (Argument.fieldsOfJson entries) = .ofJson v.toJson := by
  rw [supplied, Argument.get?_fieldsOfJson, h]
  rfl

private theorem bind_fieldsOfJson (h : Fields.get? p.name entries = some v.toJson)
    (ha : p.type.accepts v = true) (builtIns : List (Text × Argument)) :
    p.bind (Argument.fieldsOfJson entries) builtIns = .ok (some v) := by
  have hsupplied := supplied_fieldsOfJson h
  have hne : p.supplied (Argument.fieldsOfJson entries) ≠ .null :=
    hsupplied ▸ ofJson_toJson_ne_null v
  have hgiven := given_of_supplied builtIns hne
  rw [bind_of_given (hgiven ▸ hne), hgiven, hsupplied, convert_toJson ha]

private theorem configured_nil (p : Parameter) : p.configured [] = .null := by
  rw [configured]
  cases p.builtIn <;> rfl

end Parameter

/-- The entry of a parameter in a bound frame is what the parameter is bound to. -/
private theorem get?_of_bindAll {arguments builtIns : List (Text × Argument)}
    {parameters : List Parameter} {frame : Frame} {p : Parameter} {v : Option Value}
    (hn : (parameters.map Parameter.name).Nodup)
    (h : (bindAll arguments builtIns parameters).outcome = .ok frame) (hp : p ∈ parameters)
    (hv : p.bind arguments builtIns = .ok v) : Fields.get? p.name frame = some v := by
  have hentries := bindAll_ok_iff.mp h
  have hkeys : Fields.keys frame = parameters.map Parameter.name :=
    Related.map_eq_map (hentries.imp fun _ _ hentry => hentry.1)
  obtain ⟨entry, hentry, hname, hbind⟩ := Related.exists_of_mem_left hentries hp
  cases hv.symm.trans hbind
  exact (Fields.get?_eq_some_iff (hkeys ▸ hn)).mpr (hname ▸ hentry)

namespace CommandLine
variable {r : Registry} {document : Json} {rs : RuleSet} {items : List Text}
  {entries : List (Text × Json)}

/-- Only a required parameter that has no default and is not assigned is missed. -/
private theorem Gathers.missing_of_error {reject : Bool} {e : BindError}
    (h : Gathers rs items entries)
    (he : (bindParameters rs.parameters (Argument.fieldsOfJson entries) [] reject).outcome =
      .error e) :
    ∃ p ∈ rs.parameters, e = .missing p.name ∧ p.required = true ∧ p.default = none ∧
      p.name ∉ Fields.keys entries := by
  have hnone : undeclared? rs.parameters (Argument.fieldsOfJson entries) = none := by
    rw [undeclared?_eq_none_iff, Argument.keys_fieldsOfJson]
    exact h.declared
  rw [bindParameters, hnone] at he
  obtain ⟨p, hp, hbind⟩ := bindAll_error he
  cases hget : Fields.get? p.name entries with
  | some d =>
    obtain ⟨text, v, -, hdenotes, rfl⟩ := (h.last p hp d).mp hget
    cases hbind.symm.trans (Parameter.bind_fieldsOfJson hget hdenotes.accepts [])
  | none =>
    have hsupplied : p.supplied (Argument.fieldsOfJson entries) = .null := by
      rw [Parameter.supplied, Argument.get?_fieldsOfJson, hget]
      rfl
    have hgiven := Parameter.given_eq_null_iff.mpr ⟨hsupplied, p.configured_nil⟩
    rw [Parameter.bind_of_not_given hgiven] at hbind
    split at hbind
    · next hmissing =>
      cases hbind
      obtain ⟨hdefault, hrequired⟩ := Bool.and_eq_true_iff.mp hmissing
      exact ⟨p, hp, rfl, hrequired, Option.isNone_iff_eq_none.mp hdefault,
        (Fields.get?_eq_none_iff _ _).mp hget⟩
    · cases hbind

/-- A text that is a JSON array of strings stands for exactly these strings. -/
private theorem denotes_strings {text : Text} {strings : List Text}
    (h : Json.parse text.toList = .ok (.arr (strings.map .str))) :
    Denotes .stringArray text (.list (strings.map .string)) := by
  have htexts : (strings.map Json.str).map Json.plainText = strings := by
    rw [List.map_map]
    exact List.map_id strings
  have hlists := Lists.array h
  rw [htexts] at hlists
  exact .list hlists

/-- From the entries alone a parameter takes a value, and in every frame bound from them it has it.
-/
structure BoundTo (rs : RuleSet) (entries : List (Text × Json)) (p : Parameter) (v : Value) :
    Prop where
  bind : p.bind (Argument.fieldsOfJson entries) [] = .ok (some v)
  frame : ∀ reject frame,
    (bindParameters rs.parameters (Argument.fieldsOfJson entries) [] reject).outcome = .ok frame →
      Fields.get? p.name frame = some (some v)

/-- A parameter is bound to what the last text for it stands for. -/
private theorem Gathers.boundTo {p : Parameter} {text : Text} {v : Value}
    (hn : (rs.parameters.map Parameter.name).Nodup) (h : Gathers rs items entries)
    (hp : p ∈ rs.parameters) (hlast : LastAssigned p.name text items)
    (hv : Denotes p.type text v) : BoundTo rs entries p v := by
  have hbind : p.bind (Argument.fieldsOfJson entries) [] = .ok (some v) :=
    Parameter.bind_fieldsOfJson ((h.last p hp _).mpr ⟨text, v, hlast, hv, rfl⟩) hv.accepts []
  exact ⟨hbind, fun reject frame hframe =>
    get?_of_bindAll hn (bindAll_of_bindParameters hframe) hp hbind⟩

end CommandLine

namespace RuleSet
open CommandLine
variable {r : Registry} {document : Json} {rs : RuleSet} {items : List Text}

/-- Assignments to declared parameters are refused exactly when one of them has no equals sign,
gives a truth value that is not spelled as one, or gives a list in JSON with a whole number that is
too long, and for the first of these faults. Otherwise each parameter is bound to what the last text
for it stands for, which for a JSON array of strings are these strings, and the binding fails only
for a required parameter that is left out. -/
theorem parseAssignments_bindable (hload : load r document = .ok rs) (hd : document.Distinct)
    (hdeclared : ∀ item ∈ items, ∀ key text, Assigns item key text →
      key ∈ rs.parameters.map Parameter.name) :
    ((∃ e, parseAssignments (some rs) items = .error e) ↔
      ∃ item ∈ items, ∃ e, Fault rs item e) ∧
    (∀ e, parseAssignments (some rs) items = .error e → FirstFault rs items e) ∧
    ∀ entries, parseAssignments (some rs) items = .ok entries →
      Gathers rs items entries ∧
      (∀ reject e,
        (bindParameters rs.parameters (Argument.fieldsOfJson entries) [] reject).outcome =
          .error e →
        ∃ p ∈ rs.parameters, e = .missing p.name ∧ p.required = true ∧ p.default = none ∧
          p.name ∉ Fields.keys entries) ∧
      ∀ p ∈ rs.parameters, ∀ text, LastAssigned p.name text items →
        (∀ v, Denotes p.type text v → BoundTo rs entries p v) ∧
        ∀ strings : List Text, p.type = .stringArray →
          Json.parse text.toList = .ok (.arr (strings.map .str)) →
          BoundTo rs entries p (.list (strings.map .string)) := by
  have hn := nodup_names hd (loaded_of_load hload).built
  refine ⟨?_, fun e => (assignAll_error_iff hn).mp, fun entries hentries => ?_⟩
  · rw [← exists_firstFault_iff]
    exact exists_congr fun e => assignAll_error_iff hn
  · have hgathers := gathers_of_parseAssignments hn hdeclared hentries
    exact ⟨hgathers, fun reject e => hgathers.missing_of_error, fun p hp text hlast =>
      ⟨fun v => hgathers.boundTo hn hp hlast, fun strings htype hparse =>
        hgathers.boundTo hn hp hlast (htype ▸ denotes_strings hparse)⟩⟩

/-- Zones are assigned twice, with equals signs behind the first one. -/
def zoneItems : List Text :=
  ["Zones=a, b", "Region=eu=1", "UseFIPS= TRUE\t", "Zones=[\"b=1\", \"c\"]"]

theorem parseAssignments_bindable_sample :
    load .standard sourcesDocument = .ok sourcesRuleSet ∧ sourcesDocument.Distinct ∧
    (∀ item ∈ zoneItems, ∀ key text, Assigns item key text →
      key ∈ sourcesRuleSet.parameters.map Parameter.name) ∧
    ∃ entries, parseAssignments (some sourcesRuleSet) zoneItems = .ok entries ∧
      ∃ p ∈ sourcesRuleSet.parameters, p.name = "Zones" ∧
        BoundTo sourcesRuleSet entries p (.list [.string "b=1", .string "c"]) := by
  have hkeys : ∀ item ∈ zoneItems, ∀ parts ∈ Text.cutAt? '=' item.toList,
      Text.ofList parts.1 ∈ sourcesRuleSet.parameters.map Parameter.name := by
    decide +kernel
  have hdeclared : ∀ item ∈ zoneItems, ∀ key text, Assigns item key text →
      key ∈ sourcesRuleSet.parameters.map Parameter.name := by
    intro item hitem key text h
    simpa using hkeys item hitem _ (assigns_iff.mp h)
  have hok : (parseAssignments (some sourcesRuleSet) zoneItems).isOk = true := by decide +kernel
  obtain ⟨entries, hentries⟩ := Outcome.exists_of_isOk hok
  have hzones : ∃ p ∈ sourcesRuleSet.parameters, p.name = "Zones" ∧ p.type = .stringArray := by
    decide +kernel
  obtain ⟨p, hp, hname, htype⟩ := hzones
  have hlast : LastAssigned p.name "[\"b=1\", \"c\"]" zoneItems := by
    rw [hname]
    exact .before (.before (.before (.last ⟨rfl, by decide⟩ (List.forall_mem_nil _))))
  have hparse : Json.parse (Text.toList "[\"b=1\", \"c\"]") =
      .ok (.arr (["b=1", "c"].map .str)) := by
    decide +kernel
  obtain ⟨-, -, hbound⟩ := parseAssignments_bindable sources_load sourcesDocument_distinct hdeclared
  exact ⟨sources_load, sourcesDocument_distinct, hdeclared, entries, hentries, p, hp, hname,
    ((hbound entries hentries).2.2 p hp _ hlast).2 _ htype hparse⟩

/-- A text of digits that are too many is no JSON that can be read. -/
private theorem parse_ones {n : Nat} (h : digitLimit < n + 1) :
    Json.parse (List.replicate (n + 1) (.char '1')) =
      .error (.breakdown (.longNumeral (n + 1))) := by
  have hspan : (List.replicate (n + 1) (.char '1')).span CodePoint.isDigit =
      (List.replicate (n + 1) (.char '1'), []) := by
    have hdigit : (CodePoint.char '1').isDigit = true := by decide
    rw [List.span_eq_takeWhile_dropWhile]
    simp [hdigit]
  have hread : (Json.Parser.numeral (List.replicate (n + 1) (.char '1'))).read =
      .error (.longNumeral (n + 1)) := by
    rw [Numeral.read_error_iff, Json.Parser.numeral, List.length_replicate]
    exact ⟨h, rfl⟩
  have hwhole : Json.Parser.wholePart? (List.replicate (n + 1) (.char '1')) =
      some ((List.replicate (n + 1) (.char '1')).span CodePoint.isDigit) := rfl
  have hnumber : Json.Parser.scalar? (List.replicate (n + 1) (.char '1')) =
      some (.error (.longNumeral (n + 1)), []) := by
    have hconstant : Json.Parser.scalar? (List.replicate (n + 1) (.char '1')) =
      Json.Parser.magnitude? false (List.replicate (n + 1) (.char '1')) := rfl
    rw [hconstant, Json.Parser.magnitude?, hwhole, hspan]
    simp [Json.Parser.fractionPart, Json.Parser.exponentPart?, hread]
    rfl
  have hdatum (fuel : Nat) : Json.Parser.datum Json.mergeRepeated (fuel + 1)
      (List.replicate (n + 1) (.char '1')) = .error (.breakdown (.longNumeral (n + 1))) := by
    unfold Json.Parser.datum
    split
    · next h => simp [List.replicate_succ] at h
    · next h => simp [List.replicate_succ] at h
    · next h => simp [List.replicate_succ] at h
    · rw [hnumber]
  unfold Json.parse Json.Parser.document
  split
  · next h => simp [List.replicate_succ] at h
  · exact Outcome.bind_error_iff.mpr (.inl (hdatum _))

/-- The item that assigns such a text to the zones. -/
private def longItem (digits : Nat) : Text :=
  "Zones=" ++ Text.ofList (List.replicate digits (.char '1'))

private theorem assigns_longItem (digits : Nat) :
    Assigns (longItem digits) "Zones" (Text.ofList (List.replicate digits (.char '1'))) := by
  refine ⟨?_, by decide⟩
  rw [longItem, Text.toList_append]
  rfl

/-- A list is refused although its item has an equals sign and no truth value is asked for. -/
theorem parseAssignments_longNumber :
    ∃ (document : Json) (rs : RuleSet) (item text : Text) (p : Parameter) (n : Nat),
      load .standard document = .ok rs ∧ document.Distinct ∧ p ∈ rs.parameters ∧
      p.type = .stringArray ∧ Assigns item p.name text ∧
      parseAssignments (some rs) [item] = .error (.breakdown (.longNumeral n)) := by
  have hn := nodup_names sourcesDocument_distinct (loaded_of_load sources_load).built
  have hzones : ∃ p ∈ sourcesRuleSet.parameters, p.name = "Zones" ∧ p.type = .stringArray := by
    decide +kernel
  obtain ⟨p, hp, hname, htype⟩ := hzones
  have hassigns := hname ▸ assigns_longItem (digitLimit + 1)
  have hparse := parse_ones (Nat.lt_succ_self digitLimit)
  exact ⟨sourcesDocument, sourcesRuleSet, longItem (digitLimit + 1), _, p, digitLimit + 1,
    sources_load, sourcesDocument_distinct, hp, htype, hassigns,
    (assignAll_error_iff hn).mpr (.here (.unreadable hp htype hassigns hparse))⟩

end RuleSet
end EndpointRules
