import EndpointRules.Template.Basic
import EndpointRules.Proofs.AttrPath
import Mathlib.Data.List.Chain

/-! Reading and writing templates are inverse. A source is a template exactly when it is the written
form of canonical parts: texts that are neither empty nor next to each other, and placeholders with
a name and, if they have one, a path that are well formed. Any other source is malformed, unless too
many digits in a path break the reading off. -/

namespace EndpointRules

/-! Characters of names and paths. -/

namespace Text

private theorem mem_dropFinalNewline {cs : List CodePoint} {c : CodePoint} (h : c ∈ cs) :
    c ∈ dropFinalNewline cs ∨ c = '\n' := by
  unfold dropFinalNewline
  split
  · next hlast =>
    obtain ⟨before, rfl⟩ := List.getLast?_eq_some_iff.mp hlast
    rw [List.dropLast_concat]
    rcases List.mem_append.mp h with h | h
    · exact .inl h
    · exact .inr (List.mem_singleton.mp h)
  · exact .inl h

private theorem isIdentRest_of_isIdentStart {c : CodePoint} (h : isIdentStart c = true) :
    isIdentRest c = true := by
  rw [isIdentStart, Bool.or_eq_true] at h
  rw [isIdentRest, isAlphanumeric, Bool.or_eq_true, Bool.or_eq_true]
  exact h.imp_left .inl

/-- An identifier has only characters of identifiers, and perhaps a line feed. -/
private theorem isIdentRest_of_isIdent {cs : List CodePoint} (h : isIdent cs = true) {c : CodePoint}
    (hc : c ∈ cs) :
    isIdentRest c = true ∨ c = '\n' := by
  rcases mem_dropFinalNewline hc with hc | hc
  · left
    unfold isIdent at h
    generalize dropFinalNewline cs = plain at h hc
    cases plain with
    | nil => cases hc
    | cons first rest =>
      rw [isPlainIdent, Bool.and_eq_true, List.all_eq_true] at h
      rcases List.mem_cons.mp hc with rfl | hc
      · exact isIdentRest_of_isIdentStart h.1
      · exact h.2 c hc
  · exact .inr hc

end Text

namespace AttrPath

/-- The characters that may stand in an attribute path. -/
def IsPathChar (c : CodePoint) : Prop :=
  Text.isIdentRest c = true ∨ (Text.digitValue? c).isSome ∨
    c ∈ [.char '[', .char ']', .char '.', .char '\n']

mutual
private theorem isPathChar_of_indices :
    (cs : List CodePoint) → (indices? cs).isSome → ∀ c ∈ cs, IsPathChar c
  | [], _ => by simp
  | c :: rest, h => by
    unfold indices? at h
    split at h
    · next hc =>
      subst hc
      exact List.forall_mem_cons.mpr ⟨.inr (.inr (by decide)), isPathChar_of_firstDigit rest h⟩
    · cases h

private theorem isPathChar_of_firstDigit : (cs : List CodePoint) → (firstDigit? cs).isSome →
    ∀ c ∈ cs, IsPathChar c
  | [], h => by cases h
  | c :: rest, h => by
    rw [firstDigit?, Option.isSome_bind, Option.any_eq_true] at h
    obtain ⟨digit, hdigit, hrest⟩ := h
    have hfirst : (Text.digitValue? c).isSome := by rw [hdigit]; rfl
    exact List.forall_mem_cons.mpr ⟨.inr (.inl hfirst), isPathChar_of_moreDigits _ rest hrest⟩

private theorem isPathChar_of_moreDigits : (index : Numeral) → (cs : List CodePoint) →
    (moreDigits? index cs).isSome → ∀ c ∈ cs, IsPathChar c
  | _, [], h => by cases h
  | index, c :: rest, h => by
    unfold moreDigits? at h
    split at h
    · next hc =>
      subst hc
      rw [Option.isSome_map] at h
      exact List.forall_mem_cons.mpr ⟨.inr (.inr (by decide)), isPathChar_of_indices rest h⟩
    · rw [Option.isSome_bind, Option.any_eq_true] at h
      obtain ⟨digit, hdigit, hrest⟩ := h
      have hfirst : (Text.digitValue? c).isSome := by rw [hdigit]; rfl
      exact List.forall_mem_cons.mpr ⟨.inr (.inl hfirst), isPathChar_of_moreDigits _ rest hrest⟩
end

private theorem isPathChar_of_plainSegment {cs : List CodePoint} (h : (plainSegment? cs).isSome) :
    ∀ c ∈ cs, IsPathChar c := by
  unfold plainSegment? at h
  split at h
  · simp
  · split at h
    · rw [List.span_eq_takeWhile_dropWhile] at h
      simp only [Option.isSome_map] at h
      intro c hc
      rw [← List.takeWhile_append_dropWhile (p := Text.isIdentRest) (l := _ :: _)] at hc
      rcases List.mem_append.mp hc with hc | hc
      · exact .inl (List.mem_takeWhile_imp hc)
      · exact isPathChar_of_indices _ h c hc
    · rw [Option.isSome_map] at h
      exact isPathChar_of_indices _ h

private theorem isPathChar_of_segment {cs : List CodePoint} (h : (segment? cs).isSome) :
    ∀ c ∈ cs, IsPathChar c := by
  unfold segment? at h
  split at h
  · cases h
  · intro c hc
    rcases Text.mem_dropFinalNewline hc with hc | rfl
    · exact isPathChar_of_plainSegment h c hc
    · exact .inr (.inr (by decide))

private theorem segment_of_segments {pieces : List (List CodePoint)} {steps : List AttrStep}
    (h : readSegments pieces = .ok (some steps)) : ∀ piece ∈ pieces, (segment? piece).isSome := by
  induction pieces generalizing steps with
  | nil => exact List.forall_mem_nil _
  | cons first rest ih =>
    rw [readSegments] at h
    split at h
    · cases h
    · next segment hsegment =>
      obtain ⟨here, -, h⟩ := Outcome.bind_ok_iff.mp h
      obtain ⟨later, hlater, h⟩ := Outcome.bind_ok_iff.mp h
      obtain ⟨last, rfl, -⟩ := Option.map_eq_some_iff.mp (Except.ok.inj h)
      exact List.forall_mem_cons.mpr ⟨by rw [hsegment]; rfl, ih hlater⟩

/-- A path that can be read. -/
def IsPath (path : Text) : Prop := ∃ steps, read path = .ok (some steps)

private theorem isPathChar_of_isPath {path : Text} (h : IsPath path) :
    ∀ c ∈ path.toList, IsPathChar c := by
  obtain ⟨steps, h⟩ := h
  intro c hc
  rcases (Text.joined_splitOnP (· == .char '.') _).mem_piece hc with hdot | ⟨piece, hpiece, hc⟩
  · rw [beq_iff_eq] at hdot
    exact .inr (.inr (by simp [hdot]))
  · exact isPathChar_of_segment (segment_of_segments h piece hpiece) c hc

end AttrPath

namespace Template

/-- A text is not empty, the name of a placeholder is an identifier, and its path is one that can be
read. -/
def Part.WellFormed : Part → Prop
  | .text s => s ≠ ""
  | .placeholder name path =>
    Text.isIdent name.toList = true ∧ ∀ p, path = some p → AttrPath.IsPath p

/-- Well-formed parts, no two texts of which follow one another. -/
def Canonical (parts : List Part) : Prop :=
  (∀ part ∈ parts, part.WellFormed) ∧
    parts.IsChain fun part next => ¬ (part.isText = true ∧ next.isText = true)

variable {source : Text} {parts : List Part} {part : Part}

/-! Placeholders. -/

private theorem mem_label {name : Text} {path : Option Text} {c : CodePoint}
    (h : c ∈ (label name path).toList) :
    c ∈ name.toList ∨ c = '#' ∨ ∃ p, path = some p ∧ c ∈ p.toList := by
  cases path with
  | none => exact .inl h
  | some p =>
    simp only [label, Text.toList_append, List.mem_append] at h
    rcases h with (h | h) | h
    · exact .inl h
    · exact .inr (.inl (List.mem_singleton.mp h))
    · exact .inr (.inr ⟨p, rfl, h⟩)

/-- No brace stands in an attribute path. -/
theorem not_isBrace_of_isPath {path : Text} (h : AttrPath.IsPath path) {c : CodePoint}
    (hc : c ∈ path.toList) : isBrace c = false := by
  rw [← Bool.not_eq_true]
  intro hbrace
  rw [isBrace, Bool.or_eq_true, decide_eq_true_eq, decide_eq_true_eq] at hbrace
  rcases AttrPath.isPathChar_of_isPath h c hc with hrest | hdigit | hmark
  · rcases hbrace with rfl | rfl <;> revert hrest <;> decide
  · rcases hbrace with rfl | rfl <;> revert hdigit <;> decide
  · rcases hbrace with rfl | rfl <;> revert hmark <;> decide

private theorem not_isBrace_of_isIdent {name : List CodePoint} (h : Text.isIdent name = true)
    {c : CodePoint}
    (hc : c ∈ name) : isBrace c = false := by
  rcases Text.isIdentRest_of_isIdent h hc with hrest | rfl
  · rw [← Bool.not_eq_true]
    intro hbrace
    rw [isBrace, Bool.or_eq_true, decide_eq_true_eq, decide_eq_true_eq] at hbrace
    rcases hbrace with rfl | rfl <;> revert hrest <;> decide
  · decide

private theorem hash_not_mem_of_isIdent {name : List CodePoint} (h : Text.isIdent name = true) :
    .char '#' ∉ name := by
  intro hmem
  rcases Text.isIdentRest_of_isIdent h hmem with h | h <;> revert h <;> decide

/-- No brace stands inside a placeholder. -/
private theorem not_isBrace_of_mem_label {name : Text} {path : Option Text}
    (hname : Text.isIdent name.toList = true)
    (hpath : ∀ p, path = some p → ∀ c ∈ p.toList, isBrace c = false) {c : CodePoint}
    (hc : c ∈ (label name path).toList) : isBrace c = false := by
  rcases mem_label hc with hmem | rfl | ⟨p, rfl, hmem⟩
  · exact not_isBrace_of_isIdent hname hmem
  · decide
  · exact hpath p rfl c hmem

/-- A placeholder is read from a body exactly when it is well formed and the body is its label. -/
private theorem placeholder_ok_iff {body : List CodePoint} :
    placeholder source body = .ok part ↔ ∃ name path, part = .placeholder name path ∧
      part.WellFormed ∧ (label name path).toList = body := by
  constructor
  · intro h
    unfold placeholder at h
    cases hcut : Text.cutAt? '#' body with
    | none =>
      rw [hcut] at h
      dsimp only at h
      split at h
      · cases h
      · next hname =>
        cases h
        rw [Bool.not_eq_true', Bool.not_eq_false] at hname
        refine ⟨_, none, rfl, ⟨?_, fun p hp => by cases hp⟩, ?_⟩
        · rwa [Text.toList_ofList]
        · rw [label, Text.toList_ofList]
    | some cut =>
      obtain ⟨name, path⟩ := cut
      obtain ⟨rfl, -⟩ := Text.cutAt?_eq_some_iff.mp hcut
      rw [hcut] at h
      dsimp only at h
      split at h
      · cases h
      · next hname =>
        rw [Bool.not_eq_true', Bool.not_eq_false] at hname
        obtain ⟨steps, hsteps, h⟩ := Outcome.bind_ok_iff.mp h
        cases steps with
        | none => cases h
        | some steps =>
          cases h
          refine ⟨_, some _, rfl, ⟨?_, fun p hp => ?_⟩, ?_⟩
          · rwa [Text.toList_ofList]
          · cases hp
            exact ⟨steps, Outcome.mapError_ok_iff.mp hsteps⟩
          · simp [label]
  · rintro ⟨name, path, rfl, ⟨hname, hpath⟩, rfl⟩
    have hmark := hash_not_mem_of_isIdent hname
    unfold placeholder
    cases path with
    | none =>
      rw [label, Text.cutAt?_eq_none_iff.mpr hmark]
      simp [hname]
    | some p =>
      have hsplit : (label name (some p)).toList = name.toList ++ .char '#' :: p.toList := by
        simp [label]
      obtain ⟨steps, hsteps⟩ := hpath p rfl
      rw [hsplit, Text.cutAt?_eq_some_iff.mpr ⟨rfl, hmark⟩]
      dsimp only
      rw [hname, Text.ofList_toList, Text.ofList_toList, hsteps]
      rfl

/-! Reading, character by character. -/

section
variable {c : CodePoint} (offset : Nat) (collected rest : List CodePoint)

private theorem outside_plain (hc : isBrace c = false) :
    outside source offset collected (c :: rest) =
      outside source (offset + 1) (c :: collected) rest := by
  rw [isBrace, Bool.or_eq_false_iff, decide_eq_false_iff_not, decide_eq_false_iff_not] at hc
  exact outside.eq_6 _ _ _ _ _ (fun _ h _ => hc.1 h) hc.1 (fun _ h _ => hc.2 h) hc.2

private theorem outside_doubled (hc : isBrace c = true) :
    outside source offset collected (c :: c :: rest) =
      outside source (offset + 2) (c :: collected) rest := by
  rw [isBrace, Bool.or_eq_true, decide_eq_true_eq, decide_eq_true_eq] at hc
  rcases hc with rfl | rfl <;> rfl

private theorem outside_single (hsingle : ∀ later, rest ≠ .char '\x7b' :: later) :
    outside source offset collected (.char '\x7b' :: rest) =
      (inside source offset [] rest).map (flush collected ++ ·) :=
  outside.eq_3 _ _ _ _ hsingle

end

/-! Reading gives canonical parts whose written form is the source. -/

private theorem chars_flush (collected : List CodePoint) :
    (flush collected).flatMap Part.chars = escape collected.reverse := by
  cases collected with
  | nil => rfl
  | cons c rest => simp [flush, Part.chars]

/-- Collected text may be put in front of parts that do not begin with text. -/
private theorem Canonical.flush_append {collected : List CodePoint} (h : Canonical parts)
    (hnext : ∀ next ∈ parts.head?, next.isText = false) : Canonical (flush collected ++ parts) := by
  cases collected with
  | nil => exact h
  | cons c rest =>
    obtain ⟨hformed, hchain⟩ := h
    refine ⟨List.forall_mem_cons.mpr ⟨?_, hformed⟩, List.isChain_cons.mpr ⟨?_, hchain⟩⟩
    · intro hempty
      simp at hempty
    · intro next hmem hboth
      cases (hnext next hmem).symm.trans hboth.2

/-- A placeholder may stand in front of any parts. -/
private theorem Canonical.cons_placeholder (h : Canonical parts) (hformed : part.WellFormed)
    (hpart : part.isText = false) : Canonical (part :: parts) := by
  refine ⟨List.forall_mem_cons.mpr ⟨hformed, h.1⟩, List.isChain_cons.mpr ⟨?_, h.2⟩⟩
  intro next _ hboth
  cases hpart.symm.trans hboth.1

/-- The parts that are read outside of a placeholder are canonical, and their written form is what
has been collected and what is still to be read. Those that are read inside of one begin with the
placeholder. -/
private theorem chars_of_read :
    (∀ (offset : Nat) (collected cs : List CodePoint) (parts : List Part),
      outside source offset collected cs = .ok parts →
        Canonical parts ∧ parts.flatMap Part.chars = escape collected.reverse ++ cs) ∧
    ∀ (offset : Nat) (body cs : List CodePoint) (parts : List Part),
      inside source offset body cs = .ok parts →
        (Canonical parts ∧ ∀ next ∈ parts.head?, next.isText = false) ∧
          parts.flatMap Part.chars = .char '\x7b' :: body.reverse ++ cs := by
  -- The cases are those of the two functions, in the order in which they are written.
  apply outside.mutual_induct
  case case1 =>
    intro offset collected parts h
    cases h
    have hnil : Canonical ([] : List Part) := ⟨by simp, .nil⟩
    have hcanonical : Canonical (flush collected ++ []) := hnil.flush_append (by simp)
    rw [List.append_nil] at hcanonical ⊢
    exact ⟨hcanonical, chars_flush collected⟩
  case case2 =>
    intro offset collected rest ih parts h
    obtain ⟨hcanonical, hchars⟩ := ih parts h
    exact ⟨hcanonical, by simp [hchars, escape_append, escape, isBrace]⟩
  case case3 =>
    intro offset collected rest hsingle ih parts h
    rw [outside_single _ _ _ hsingle, Outcome.map_ok_iff] at h
    obtain ⟨later, hlater, rfl⟩ := h
    obtain ⟨⟨hcanonical, hnext⟩, hchars⟩ := ih later hlater
    exact ⟨hcanonical.flush_append hnext, by simp [chars_flush, hchars]⟩
  case case4 =>
    intro offset collected rest ih parts h
    obtain ⟨hcanonical, hchars⟩ := ih parts h
    exact ⟨hcanonical, by simp [hchars, escape_append, escape, isBrace]⟩
  case case5 =>
    intro offset collected rest hsingle parts h
    rw [outside.eq_5 _ _ _ _ hsingle] at h
    cases h
  case case6 =>
    intro offset collected c rest _ hopen _ hclose ih parts h
    have hc : isBrace c = false := by simpa [isBrace] using ⟨hopen, hclose⟩
    rw [outside_plain _ _ _ hc] at h
    obtain ⟨hcanonical, hchars⟩ := ih parts h
    exact ⟨hcanonical, by simp [hchars, escape_append, escape, hc]⟩
  case case7 =>
    intro offset body parts h
    cases h
  case case8 =>
    intro offset body rest hnested parts h
    rw [inside, if_pos rfl, if_pos hnested] at h
    cases h
  case case9 =>
    intro offset body rest hflat ih parts h
    rw [inside, if_pos rfl, if_neg hflat] at h
    obtain ⟨part, hpart, h⟩ := Outcome.bind_ok_iff.mp h
    obtain ⟨later, hlater, h⟩ := Outcome.bind_ok_iff.mp h
    cases h
    obtain ⟨hcanonical, hchars⟩ := ih later hlater
    obtain ⟨name, path, rfl, hformed, hlabel⟩ := placeholder_ok_iff.mp hpart
    refine ⟨⟨hcanonical.cons_placeholder hformed rfl, ?_⟩, ?_⟩
    · rintro next ⟨⟩
      rfl
    · simp [Part.chars, hlabel, hchars, escape]
  case case10 =>
    intro offset body c rest hc ih parts h
    rw [inside, if_neg hc] at h
    obtain ⟨hcanonical, hchars⟩ := ih parts h
    exact ⟨hcanonical, by simp [hchars]⟩

/-- The parts of a template are canonical. -/
theorem canonical_of_parse {t : Template} (h : parse source = .ok t) : Canonical t.parts := by
  obtain ⟨parts, hparts, rfl⟩ := Outcome.map_ok_iff.mp h
  exact (chars_of_read.1 _ _ _ _ hparts).1

/-- The source of a template is the written form of its parts. -/
theorem chars_of_parse {t : Template} (h : parse source = .ok t) :
    t.parts.flatMap Part.chars = source.toList := by
  obtain ⟨parts, hparts, rfl⟩ := Outcome.map_ok_iff.mp h
  exact (chars_of_read.1 _ _ _ _ hparts).2

/-! Reading the written form of canonical parts gives the parts. -/

theorem outside_escape (offset : Nat) (collected text rest : List CodePoint) :
    outside source offset collected (escape text ++ rest) =
      outside source (offset + (escape text).length) (text.reverse ++ collected) rest := by
  induction text generalizing offset collected with
  | nil => rfl
  | cons c text ih =>
    rw [List.reverse_cons, List.append_assoc, List.singleton_append]
    cases hc : isBrace c with
    | true =>
      have hlength : offset + (escape (c :: text)).length = offset + 2 + (escape text).length := by
        simp only [escape, hc, if_true, List.length_cons]
        omega
      rw [hlength, ← ih]
      simp only [escape, hc, if_true, List.cons_append]
      exact outside_doubled _ _ _ hc
    | false =>
      have hlength : offset + (escape (c :: text)).length = offset + 1 + (escape text).length := by
        simp only [escape, hc, Bool.false_eq_true, if_false, List.length_cons]
        omega
      rw [hlength, ← ih]
      simp only [escape, hc, Bool.false_eq_true, if_false, List.cons_append]
      exact outside_plain _ _ _ hc

/-- A body is collected up to the brace that closes it. -/
private theorem inside_body {body : List CodePoint} (hbody : ∀ c ∈ body, isBrace c = false)
    (offset : Nat)
    (collected rest : List CodePoint) :
    inside source offset collected (body ++ rest) =
      inside source offset (body.reverse ++ collected) rest := by
  induction body generalizing collected with
  | nil => rfl
  | cons c body ih =>
    obtain ⟨hc, hbody⟩ := List.forall_mem_cons.mp hbody
    have hopen : c ≠ '\x7d' := by
      rintro rfl
      cases hc
    rw [List.cons_append, inside, if_neg hopen, ih hbody]
    simp

/-- What stands between two braces is read as a placeholder, and what follows is read outside. -/
private theorem outside_enclosed {body : List CodePoint} (hbody : ∀ c ∈ body, isBrace c = false)
    (offset : Nat)
    (collected rest : List CodePoint) :
    outside source offset collected (.char '\x7b' :: (body ++ .char '\x7d' :: rest)) = (do
      let part ← placeholder source body
      return part :: (← outside source (offset + body.length + 2) [] rest)).map
        (flush collected ++ ·) := by
  have hflat : ¬ body.reverse.contains '\x7b' = true := by
    rw [List.contains_iff_mem, List.mem_reverse]
    intro hmem
    cases hbody _ hmem
  have hsingle : ∀ later, body ++ .char '\x7d' :: rest ≠ .char '\x7b' :: later := by
    intro later heq
    cases body with
    | nil => cases heq
    | cons c cs =>
      cases heq
      cases hbody _ List.mem_cons_self
  rw [outside_single _ _ _ hsingle, inside_body hbody, List.append_nil, inside, if_pos rfl,
    if_neg hflat, List.reverse_reverse, List.length_reverse]

private theorem chars_placeholder (name : Text) (path : Option Text) (rest : List CodePoint) :
    (Part.placeholder name path).chars ++ rest =
      .char '\x7b' :: ((label name path).toList ++ .char '\x7d' :: rest) := by
  simp [Part.chars]

/-- A placeholder is read from its written form. -/
private theorem outside_placeholder (source : Text) {name : Text} {path : Option Text}
    (h : (Part.placeholder name path).WellFormed) (offset : Nat) (collected rest : List CodePoint) :
    ∃ further, outside source offset collected ((Part.placeholder name path).chars ++ rest) =
      (outside source further [] rest).map fun parts =>
        flush collected ++ .placeholder name path :: parts := by
  have hplain : ∀ c ∈ (label name path).toList, isBrace c = false := fun c hc =>
    not_isBrace_of_mem_label h.1 (fun p hp d hd => not_isBrace_of_isPath (h.2 p hp) hd) hc
  have hpart : placeholder source (label name path).toList = .ok (.placeholder name path) :=
    placeholder_ok_iff.mpr ⟨name, path, rfl, h, rfl⟩
  refine ⟨offset + (label name path).toList.length + 2, ?_⟩
  rw [chars_placeholder, outside_enclosed hplain, hpart]
  cases outside source (offset + (label name path).toList.length + 2) [] rest <;> rfl

/-- The written form of canonical parts is read as these parts, after collected text if they do not
begin with text. -/
theorem outside_chars (hcanonical : Canonical parts) (offset : Nat) (collected : List CodePoint)
    (hnext : collected ≠ [] → ∀ next ∈ parts.head?, next.isText = false) :
    outside source offset collected (parts.flatMap Part.chars) =
      .ok (flush collected ++ parts) := by
  induction parts generalizing offset collected with
  | nil =>
    rw [List.append_nil]
    rfl
  | cons part parts ih =>
    obtain ⟨hformed, hchain⟩ := hcanonical
    obtain ⟨hpart, hparts⟩ := List.forall_mem_cons.mp hformed
    obtain ⟨hfollows, hlater⟩ := List.isChain_cons.mp hchain
    cases part with
    | text s =>
      have hcollected : collected = [] := by
        by_contra hne
        cases hnext hne _ rfl
      subst hcollected
      have hs : s.toList.reverse ≠ [] := by
        intro hnil
        exact hpart (Text.toList_eq_nil_iff.mp (List.reverse_eq_nil_iff.mp hnil))
      have hflush : flush s.toList.reverse = [.text s] := by
        cases hchars : s.toList.reverse with
        | nil => exact absurd hchars hs
        | cons c cs =>
          rw [flush, ← hchars, List.reverse_reverse, Text.ofList_toList]
          simp
      rw [List.flatMap_cons, Part.chars, outside_escape, List.append_nil, ih ⟨hparts, hlater⟩,
        hflush]
      · rfl
      · intro _ next hmem
        have hboth := hfollows next hmem
        simpa [Part.isText] using hboth
    | placeholder name path =>
      obtain ⟨further, hread⟩ :=
        outside_placeholder source hpart offset collected (parts.flatMap Part.chars)
      rw [List.flatMap_cons, hread, ih ⟨hparts, hlater⟩ further [] (fun hne => absurd rfl hne)]
      rfl

/-- A placeholder whose path cannot be read breaks the reading off. -/
theorem parse_of_unreadable {name path : Text} {b : Breakdown}
    (hname : Text.isIdent name.toList = true) (hpath : AttrPath.read path = .error b)
    (hplain : ∀ c ∈ path.toList, isBrace c = false) :
    parse (print [.placeholder name (some path)]) = .error (.breakdown b) := by
  have hlabel : (label name (some path)).toList = name.toList ++ .char '#' :: path.toList := by
    simp [label]
  have hbody : ∀ c ∈ (label name (some path)).toList, isBrace c = false := fun c hc =>
    not_isBrace_of_mem_label hname (fun p hp => Option.some.inj hp ▸ hplain) hc
  have hpart (source : Text) :
      placeholder source (label name (some path)).toList = .error (.breakdown b) := by
    rw [hlabel, placeholder, Text.cutAt?_eq_some_iff.mpr ⟨rfl, hash_not_mem_of_isIdent hname⟩]
    dsimp only
    rw [hname, Text.ofList_toList, hpath]
    rfl
  have hchars : (print [.placeholder name (some path)]).toList =
      .char '\x7b' :: ((label name (some path)).toList ++ .char '\x7d' :: []) := by
    rw [print, Text.toList_ofList, List.flatMap_cons, chars_placeholder]
    rfl
  rw [parse, hchars, outside_enclosed hbody, hpart]
  rfl

private theorem parse_ok_iff_print {t : Template} : parse source = .ok t ↔
    t.source = source ∧ Canonical t.parts ∧ print t.parts = source := by
  rw [parse, Outcome.map_ok_iff]
  constructor
  · rintro ⟨parts, hparts, rfl⟩
    obtain ⟨hcanonical, hchars⟩ := chars_of_read.1 _ _ _ _ hparts
    refine ⟨rfl, hcanonical, ?_⟩
    rw [print, hchars]
    rfl
  · rintro ⟨rfl, hcanonical, hprint⟩
    refine ⟨t.parts, ?_, rfl⟩
    rw [← hprint, print, Text.toList_ofList]
    exact outside_chars hcanonical 0 [] fun hne => absurd rfl hne

/-- A source is read as a template exactly when it is the written form of canonical parts, which are
then the parts of the template. Every other source is a syntax error, or a row of digits in it that
is too long breaks the reading off, as in the path of a placeholder. -/
theorem parse_iff_print (source : Text) :
    (∀ t : Template, parse source = .ok t ↔
      t.source = source ∧ Canonical t.parts ∧ print t.parts = source) ∧
    (((∃ e, parse source = .error (.malformed e)) ∨
        ∃ b, parse source = .error (.breakdown b) ∧ TooLongIn b source.toList) ↔
      ¬ ∃ parts, Canonical parts ∧ print parts = source) ∧
    ∀ (name path : Text) (b : Breakdown), Text.isIdent name.toList = true →
      AttrPath.read path = .error b → (∀ c ∈ path.toList, isBrace c = false) →
      parse (print [.placeholder name (some path)]) = .error (.breakdown b) := by
  refine ⟨fun t => parse_ok_iff_print, ?_, fun name path b => parse_of_unreadable⟩
  rcases hparse : parse source with failure | t
  · have hnot : ¬ ∃ parts, Canonical parts ∧ print parts = source := by
      rintro ⟨parts, hcanonical, hprint⟩
      have hok : parse source = .ok ⟨source, parts⟩ :=
        parse_ok_iff_print.mpr ⟨rfl, hcanonical, hprint⟩
      cases hparse.symm.trans hok
    cases failure with
    | malformed e => exact iff_of_true (.inl ⟨e, rfl⟩) hnot
    | breakdown b => exact iff_of_true (.inr ⟨b, rfl, tooLongIn_of_parse hparse⟩) hnot
  · obtain ⟨-, hcanonical, hprint⟩ := parse_ok_iff_print.mp hparse
    refine iff_of_false ?_ (not_not.mpr ⟨t.parts, hcanonical, hprint⟩)
    rintro (⟨_, ⟨⟩⟩ | ⟨_, ⟨⟩, -⟩)

theorem not_isBrace_of_longPath : ∀ c ∈ AttrPath.longPath.toList, isBrace c = false := by
  intro c hc
  rw [← Bool.not_eq_true]
  intro hbrace
  rw [isBrace, Bool.or_eq_true, decide_eq_true_eq, decide_eq_true_eq] at hbrace
  rcases AttrPath.mem_longPath hc with rfl | rfl | hdigit
  · rcases hbrace with h | h <;> cases h
  · rcases hbrace with h | h <;> cases h
  · rcases hbrace with rfl | rfl <;> cases hdigit

theorem parse_iff_print_sample :
    (parse "\x7b\x7ba\x7d\x7d\x7ba#b[0]\x7d" = .ok ⟨"\x7b\x7ba\x7d\x7d\x7ba#b[0]\x7d",
      [.text "\x7ba\x7d", .placeholder "a" (some "b[0]")]⟩) ∧
    (¬ ∃ parts, Canonical parts ∧ print parts = "\x7d") ∧
    ∃ n, digitLimit < n ∧ parse (print [.placeholder "a" (some AttrPath.longPath)]) =
      .error (.breakdown (.longNumeral n)) := by
  obtain ⟨-, hother, hbroken⟩ := parse_iff_print "\x7d"
  obtain ⟨n, hn, hlong⟩ := AttrPath.read_longPath
  have hmalformed : ∃ e, parse "\x7d" = .error (.malformed e) := ⟨_, rfl⟩
  have hread : parse "\x7b\x7ba\x7d\x7d\x7ba#b[0]\x7d" = .ok ⟨"\x7b\x7ba\x7d\x7d\x7ba#b[0]\x7d",
      [.text "\x7ba\x7d", .placeholder "a" (some "b[0]")]⟩ := by
    decide +kernel
  exact ⟨hread, hother.mp (.inl hmalformed),
    n, hn, hbroken "a" AttrPath.longPath _ rfl hlong not_isBrace_of_longPath⟩

/-- A source that is not the written form of canonical parts is not always a syntax error. -/
theorem parse_longPath : ∃ (source : Text) (n : Nat),
    (¬ ∃ parts, Canonical parts ∧ print parts = source) ∧
      parse source = .error (.breakdown (.longNumeral n)) := by
  obtain ⟨n, -, hlong⟩ := AttrPath.read_longPath
  have hbroken := parse_of_unreadable (rfl : Text.isIdent (Text.toList "a") = true) hlong
    not_isBrace_of_longPath
  refine ⟨print [.placeholder "a" (some AttrPath.longPath)], n, ?_, hbroken⟩
  rintro ⟨parts, hcanonical, hprint⟩
  have hok : parse (print [.placeholder "a" (some AttrPath.longPath)]) = .ok ⟨_, parts⟩ :=
    parse_ok_iff_print.mpr ⟨rfl, hcanonical, hprint⟩
  cases hbroken.symm.trans hok

end Template
end EndpointRules
