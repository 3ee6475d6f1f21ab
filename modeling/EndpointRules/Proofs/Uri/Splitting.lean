import EndpointRules.Uri.Url
import Mathlib.Data.List.TakeWhile
import Mathlib.Data.Option.Basic

/-! How a URL is split. It is parsed exactly when it can be spelled as a scheme, an authority, a
path and a fragment that fit, and these are the parts that are found. A URL with its normalized path
and without a fragment is another spelling that fits, and so it is split the same way once more. -/

namespace EndpointRules

/-- Only letters have a letter as their lower case. -/
private theorem Text.isAlpha_of_toLower {c : CodePoint} (h : c.toLower.isAlpha = true) :
    c.isAlpha = true := by
  unfold CodePoint.toLower at h
  split at h
  · next hupper =>
    exact Bool.or_eq_true_iff.mpr (.inl hupper)
  · exact h

namespace Url
variable {text : Text} {url : Url}

/-- The schemes that are known. -/
def IsKnown (scheme : List CodePoint) : Prop :=
  scheme = Text.toList "http" ∨ scheme = Text.toList "https"

private theorem isAlpha_of_known {scheme : List CodePoint} (h : IsKnown (Text.lowerAscii scheme)) :
    ∀ c ∈ scheme, c.isAlpha = true := by
  intro c hc
  have hlower : c.toLower ∈ Text.lowerAscii scheme := List.mem_map_of_mem hc
  have hletters : ∀ d ∈ Text.lowerAscii scheme, d.isAlpha = true := by
    rcases h with h | h <;> rw [h] <;> decide
  exact Text.isAlpha_of_toLower (hletters _ hlower)

private theorem exists_of_scheme? {cs lower rest : List CodePoint}
    (h : scheme? cs = some (lower, rest)) :
    ∃ scheme, cs = scheme ++ .char ':' :: rest ∧ Text.lowerAscii scheme = lower := by
  simp only [scheme?, Option.bind_eq_bind, Option.bind_eq_some_iff, Prod.exists,
    Text.cutAt?_eq_some_iff] at h
  obtain ⟨scheme, rest, ⟨rfl, -⟩, _, -, h⟩ := h
  cases h
  exact ⟨scheme, rfl, rfl⟩

private theorem scheme?_of_known {scheme : List CodePoint} (h : IsKnown (Text.lowerAscii scheme))
    (rest : List CodePoint) :
    scheme? (scheme ++ .char ':' :: rest) = some (Text.lowerAscii scheme, rest) := by
  have hletters := isAlpha_of_known h
  have hcut : Text.cutAt? ':' (scheme ++ .char ':' :: rest) = some (scheme, rest) :=
    Text.cutAt?_eq_some_iff.mpr ⟨rfl, fun hcolon => absurd (hletters _ hcolon) (by decide)⟩
  have hall : scheme.all isSchemeChar = true := by
    refine List.all_eq_true.mpr fun c hc => ?_
    simp [isSchemeChar, Text.isAlphanumeric, hletters c hc]
  have hhead : scheme.head?.any CodePoint.isAlpha = true := by
    cases scheme with
    | nil => rcases h with h | h <;> cases h
    | cons c more => exact hletters c List.mem_cons_self
  have hguard : (scheme.head?.any CodePoint.isAlpha && scheme.all isSchemeChar) = true := by
    rw [hhead, hall, Bool.and_true]
  rw [scheme?, Option.bind_eq_bind, Option.bind_eq_some_iff]
  refine ⟨_, hcut, Option.bind_eq_some_iff.mpr ⟨(), (Option.guard_eq_some' ()).mpr hguard, rfl⟩⟩

/-! The path with a slash at both ends. -/

private theorem head?_normalize (path : List CodePoint) :
    (normalize path).head? = some (.char '/') := by
  have hclosed (start : List CodePoint) (h : start.head? = some (.char '/')) :
      (if start.getLast? = some (.char '/') then start else start ++ [.char '/']).head? =
        some (.char '/') := by
    split
    · exact h
    · rw [List.head?_append, h]
      rfl
  refine hclosed _ ?_
  split
  · assumption
  · rfl

private theorem getLast?_normalize (path : List CodePoint) :
    (normalize path).getLast? = some (.char '/') := by
  rw [normalize]
  generalize (if path.head? = some (.char '/') then path else .char '/' :: path) = start
  split
  · assumption
  · exact List.getLast?_concat

private theorem normalize_of_slashes {path : List CodePoint}
    (hstart : path.head? = some (.char '/'))
    (hend : path.getLast? = some (.char '/')) : normalize path = path := by
  rw [normalize, if_pos hstart]
  exact if_pos hend

private theorem normalize_idem (path : List CodePoint) :
    normalize (normalize path) = normalize path :=
  normalize_of_slashes (head?_normalize path) (getLast?_normalize path)

/-- A path is normalized by at most one slash at its end. -/
private theorem normalize_of_path {path : List CodePoint} (h : ∀ c ∈ path.head?, c = '/') :
    normalize path = if path.getLast? = some (.char '/') then path else path ++ [.char '/'] := by
  cases path with
  | nil => rfl
  | cons c more =>
    cases h c rfl
    rfl

private theorem mem_normalize {path : List CodePoint} {c : CodePoint} (h : c ∈ normalize path) :
    c = '/' ∨ c ∈ path := by
  have hclosed (start : List CodePoint) (hc : c ∈ if start.getLast? = some (.char '/') then start
      else start ++ [.char '/']) : c = '/' ∨ c ∈ start := by
    split at hc
    · exact .inr hc
    · exact (List.mem_append.mp hc).symm.imp_left List.mem_singleton.mp
  rcases hclosed _ h with hslash | hstart
  · exact .inl hslash
  · split at hstart
    · exact .inr hstart
    · exact List.mem_cons.mp hstart

private theorem ends_of_authorityFits {authority : List CodePoint}
    (h : authorityFits authority = true) :
    authority ≠ [] ∧ authority.getLast? ≠ some (.char ':') := by
  simp only [authorityFits, Bool.and_eq_true] at h
  obtain ⟨⟨⟨⟨⟨hne, hend⟩, -⟩, -⟩, -⟩, -⟩ := h
  exact ⟨by simpa using hne, by simpa using hend⟩

/-- The parts in which a URL is written. The fragment holds its hash sign. -/
structure Spelling where
  scheme : List CodePoint
  authority : List CodePoint
  path : List CodePoint
  fragment : List CodePoint

namespace Spelling
variable {s : Spelling}

def chars (s : Spelling) : List CodePoint :=
  s.scheme ++ .char ':' :: .char '/' :: .char '/' :: (s.authority ++ (s.path ++ s.fragment))

def parts (s : Spelling) : Url where
  scheme := Text.ofList (Text.lowerAscii s.scheme)
  authority := Text.ofList s.authority
  path := Text.ofList s.path
  normalizedPath := Text.ofList (normalize s.path)
  isIp := Uri.isIpAddress (Uri.host s.authority)

/-- The parts that a URL may have. -/
structure Fits (s : Spelling) : Prop where
  plain : ∀ c ∈ s.chars, isForbidden c = false ∧ c ≠ '?'
  known : IsKnown (Text.lowerAscii s.scheme)
  authority : ∀ c ∈ s.authority, endsAuthority c = false
  reachable : authorityFits s.authority = true
  path : ∀ c ∈ s.path.head?, c = '/'
  path_plain : .char '#' ∉ s.path
  fragment : ∀ c ∈ s.fragment.head?, c = '#'

variable {scheme rest : List CodePoint}

/-- The spelling that is read from a scheme and what follows its two slashes. -/
def read (scheme rest : List CodePoint) : Spelling where
  scheme := scheme
  authority := rest.takeWhile (!endsAuthority ·)
  path := (rest.dropWhile (!endsAuthority ·)).takeWhile (· ≠ '#')
  fragment := (rest.dropWhile (!endsAuthority ·)).dropWhile (· ≠ '#')

private theorem chars_read (scheme rest : List CodePoint) :
    (read scheme rest).chars = scheme ++ .char ':' :: .char '/' :: .char '/' :: rest := by
  rw [chars, read, List.takeWhile_append_dropWhile, List.takeWhile_append_dropWhile]

private theorem not_of_head?_dropWhile {p : CodePoint → Bool} {cs : List CodePoint} {c : CodePoint}
    (h : (cs.dropWhile p).head? = some c) : p c = false := by
  have hnot := List.head?_dropWhile_not p cs
  rwa [h] at hnot

/-- Without a query, a path or a fragment ends the authority. -/
private theorem head?_path_read {c : CodePoint} (hquery : .char '?' ∉ rest)
    (h : (read scheme rest).path.head? = some c) : c = '/' := by
  rw [read, List.head?_takeWhile, Option.filter_eq_some_iff] at h
  obtain ⟨hhead, hhash⟩ := h
  have hends := not_of_head?_dropWhile hhead
  have hmem : c ∈ rest := List.dropWhile_subset _ (List.mem_of_mem_head? hhead)
  have hne : c ≠ '?' := fun heq => hquery (heq ▸ hmem)
  simpa [endsAuthority, hne, of_decide_eq_true hhash] using hends

private theorem fits_read (hplain : ∀ c ∈ scheme ++ .char ':' :: .char '/' :: .char '/' :: rest,
    isForbidden c = false ∧ c ≠ '?') (hknown : IsKnown (Text.lowerAscii scheme))
    (hreachable : authorityFits (rest.takeWhile (!endsAuthority ·)) = true) :
    (read scheme rest).Fits where
  plain := by rwa [chars_read]
  known := hknown
  authority := fun c hc => by simpa using List.mem_takeWhile_imp hc
  reachable := hreachable
  path := fun c hc => head?_path_read (fun hmem => (hplain '?' (by simp [hmem])).2 rfl) hc
  path_plain := fun hmem => by simpa using List.mem_takeWhile_imp hmem
  fragment := fun c hc => by simpa using not_of_head?_dropWhile hc

/-- What follows a text up to where it has to stop. -/
private theorem span_append {p : CodePoint → Bool} {front back : List CodePoint}
    (hfront : ∀ c ∈ front, p c = true) (hback : ∀ c ∈ back.head?, p c = false) :
    (front ++ back).takeWhile p = front ∧ (front ++ back).dropWhile p = back := by
  rw [List.takeWhile_append_of_pos hfront, List.dropWhile_append_of_pos hfront]
  cases back with
  | nil => exact ⟨List.append_nil front, rfl⟩
  | cons c more =>
    have hc : ¬ p c = true := Bool.not_eq_true _ ▸ hback c rfl
    rw [List.takeWhile_cons_of_neg hc, List.dropWhile_cons_of_neg hc]
    exact ⟨List.append_nil front, rfl⟩

/-- What fits is read as it was written. -/
private theorem Fits.read_eq (h : s.Fits) :
    read s.scheme (s.authority ++ (s.path ++ s.fragment)) = s := by
  have hauthority : ∀ c ∈ s.authority, (!endsAuthority c) = true := by
    simpa using h.authority
  have hbehind : ∀ c ∈ (s.path ++ s.fragment).head?, (!endsAuthority c) = false := by
    intro c hc
    rw [List.head?_append] at hc
    rcases Option.or_eq_some_iff.mp hc with hpath | ⟨-, hfragment⟩
    · rw [h.path c hpath]
      rfl
    · rw [h.fragment c hfragment]
      rfl
  have hpath : ∀ c ∈ s.path, decide (c ≠ '#') = true := fun c hc =>
    decide_eq_true fun heq => h.path_plain (heq ▸ hc)
  have hfragment : ∀ c ∈ s.fragment.head?, decide (c ≠ '#') = false := fun c hc =>
    decide_eq_false (not_not_intro (h.fragment c hc))
  obtain ⟨htake, hdrop⟩ := span_append hauthority hbehind
  obtain ⟨htakePath, hdropPath⟩ := span_append hpath hfragment
  rw [read, htake, hdrop, htakePath, hdropPath]

end Spelling

private theorem plain_iff {cs : List CodePoint} :
    (!cs.any isForbidden && !cs.contains '?') = true ↔
      ∀ c ∈ cs, isForbidden c = false ∧ c ≠ '?' := by
  simp only [Bool.and_eq_true, Bool.not_eq_true', List.any_eq_false, List.contains_eq_mem,
    decide_eq_false_iff_not, Bool.not_eq_true]
  constructor
  · rintro ⟨hforbidden, hquery⟩ c hc
    exact ⟨hforbidden c hc, fun heq => hquery (heq ▸ hc)⟩
  · intro h
    exact ⟨fun c hc => (h c hc).1, fun hquery => (h _ hquery).2 rfl⟩

/-- A text is parsed exactly when some spelling of it fits, and then as the parts of that. -/
private theorem parse?_eq_some_iff :
    parse? text = some url ↔ ∃ s : Spelling, s.Fits ∧ s.chars = text.toList ∧ s.parts = url := by
  simp only [parse?, Option.bind_eq_bind, Option.bind_eq_some_iff, Prod.exists,
    Option.guard_eq_some', plain_iff]
  constructor
  · rintro ⟨_, hplain, lower, rest, hscheme, _, hknown, h⟩
    split at h
    · next rest =>
      simp only [Option.bind_eq_some_iff, Option.guard_eq_some'] at h
      obtain ⟨_, hreachable, h⟩ := h
      cases h
      obtain ⟨scheme, htext, rfl⟩ := exists_of_scheme? hscheme
      refine ⟨.read scheme rest, Spelling.fits_read (htext ▸ hplain) hknown hreachable, ?_, rfl⟩
      exact (Spelling.chars_read scheme rest).trans htext.symm
    · cases h
  · rintro ⟨s, hs, htext, rfl⟩
    rw [← htext]
    refine ⟨(), hs.plain, _, _, scheme?_of_known hs.known _, (), hs.known, ?_⟩
    have hread := hs.read_eq
    refine Option.bind_eq_some_iff.mpr ⟨(), (Option.guard_eq_some' ()).mpr ?_, ?_⟩
    · change authorityFits (Spelling.read s.scheme _).authority = true
      rw [hread]
      exact hs.reachable
    · change some (Spelling.read s.scheme _).parts = some s.parts
      rw [hread]

/-- How a URL lies in the text that it is parsed from. -/
structure SplitFrom (url : Url) (text : Text) : Prop where
  plain : ∀ c ∈ text.toList, 0x20 < c.toNat ∧ c.toNat ≠ 0x7f ∧ c ≠ '?'
  parts : ∃ scheme fragment : Text,
    text = scheme ++ "://" ++ url.authority ++ url.path ++ fragment ∧
    url.scheme.toList = Text.lowerAscii scheme.toList ∧
    (fragment = "" ∨ fragment.toList.head? = some (.char '#'))
  scheme : url.scheme = "http" ∨ url.scheme = "https"
  authority_ne : url.authority ≠ ""
  authority : ∀ c ∈ url.authority.toList, c ≠ '/' ∧ c ≠ '?' ∧ c ≠ '#'
  authority_end : url.authority.toList.getLast? ≠ some (.char ':')
  path : url.path = "" ∨ url.path.toList.head? = some (.char '/')
  path_plain : .char '#' ∉ url.path.toList
  normalizedPath_start : url.normalizedPath.toList.head? = some (.char '/')
  normalizedPath_end : url.normalizedPath.toList.getLast? = some (.char '/')
  normalizedPath_eq : url.normalizedPath =
    if url.path.toList.getLast? = some (.char '/') then url.path else url.path ++ "/"
  isIp_eq : url.isIp = Uri.isIpAddress (Uri.host url.authority.toList)

namespace Spelling
variable {s : Spelling}

private theorem Fits.splitFrom (h : s.Fits) : s.parts.SplitFrom (Text.ofList s.chars) := by
  obtain ⟨hne, hend⟩ := ends_of_authorityFits h.reachable
  constructor
  case plain =>
    intro c hc
    rw [Text.toList_ofList] at hc
    obtain ⟨hforbidden, hquery⟩ := h.plain c hc
    simp only [isForbidden, Bool.or_eq_false_iff, decide_eq_false_iff_not, Nat.not_le,
      beq_eq_false_iff_ne] at hforbidden
    exact ⟨hforbidden.1, hforbidden.2, hquery⟩
  case parts =>
    refine ⟨Text.ofList s.scheme, Text.ofList s.fragment, ?_, ?_, ?_⟩
    · apply Text.toList_inj.mp
      simp [chars, parts]
    · simp [parts]
    · have hfragment := h.fragment
      cases hcs : s.fragment with
      | nil => exact .inl rfl
      | cons c more =>
        rw [hcs] at hfragment
        exact .inr (by simp [hfragment c rfl])
  case scheme => exact h.known.imp (congrArg Text.ofList) (congrArg Text.ofList)
  case authority_ne => exact fun heq => hne (Text.ofList_eq_empty_iff.mp heq)
  case authority =>
    intro c hc
    rw [parts, Text.toList_ofList] at hc
    simpa [endsAuthority, and_assoc] using h.authority c hc
  case authority_end => rwa [parts, Text.toList_ofList]
  case path =>
    have hpath := h.path
    cases hcs : s.path with
    | nil => exact .inl (by rw [parts, hcs]; rfl)
    | cons c more =>
      rw [hcs] at hpath
      exact .inr (by simp [parts, hcs, hpath c rfl])
  case path_plain =>
    rw [parts, Text.toList_ofList]
    exact h.path_plain
  case normalizedPath_start =>
    rw [parts, Text.toList_ofList]
    exact head?_normalize s.path
  case normalizedPath_end =>
    rw [parts, Text.toList_ofList]
    exact getLast?_normalize s.path
  case normalizedPath_eq =>
    rw [parts, Text.toList_ofList, normalize_of_path h.path]
    split
    · rfl
    · exact Text.ofList_append _ _
  case isIp_eq => rw [parts, Text.toList_ofList]

/-- The same URL with its normalized path and without a fragment. -/
def normalized (s : Spelling) : Spelling :=
  ⟨Text.lowerAscii s.scheme, s.authority, normalize s.path, []⟩

private theorem lowerAscii_of_known {scheme : List CodePoint} (h : IsKnown scheme) :
    Text.lowerAscii scheme = scheme := by
  rcases h with rfl | rfl <;> rfl

private theorem Fits.normalized (h : s.Fits) : s.normalized.Fits where
  plain := by
    have hslash : isForbidden '/' = false ∧ CodePoint.char '/' ≠ '?' := by decide
    have hknown : ∀ c ∈ Text.lowerAscii s.scheme, isForbidden c = false ∧ c ≠ '?' := by
      rcases h.known with heq | heq <;> rw [heq] <;> decide
    intro c hc
    simp only [chars, Spelling.normalized, List.append_nil, List.mem_append, List.mem_cons] at hc
    rcases hc with hc | rfl | rfl | rfl | hc | hc
    · exact hknown c hc
    · decide
    · exact hslash
    · exact hslash
    · exact h.plain c (by simp [chars, hc])
    · rcases mem_normalize hc with rfl | hc
      · exact hslash
      · exact h.plain c (by simp [chars, hc])
  known := by
    rw [Spelling.normalized, lowerAscii_of_known h.known]
    exact h.known
  authority := h.authority
  reachable := h.reachable
  path := fun c hc => Option.some.inj (hc.symm.trans (head?_normalize s.path))
  path_plain := fun hc => by
    rcases mem_normalize hc with heq | hmem
    · exact absurd heq (by decide)
    · exact h.path_plain hmem
  fragment := fun c hc => nomatch hc

private theorem parts_normalized (h : s.Fits) :
    s.normalized.parts = { s.parts with path := s.parts.normalizedPath } := by
  rw [parts, normalized, lowerAscii_of_known h.known, normalize_idem]
  rfl

end Spelling

/-- A parsed URL is made of parts of its text, and it is parsed again, as itself with the normalized
path, from its scheme, its authority and its normalized path. -/
theorem parse?_splits (h : parse? text = some url) :
    url.SplitFrom text ∧
    parse? (url.scheme ++ "://" ++ url.authority ++ url.normalizedPath) =
      some { url with path := url.normalizedPath } := by
  obtain ⟨s, hs, htext, rfl⟩ := parse?_eq_some_iff.mp h
  refine ⟨?_, parse?_eq_some_iff.mpr
    ⟨s.normalized, hs.normalized, ?_, Spelling.parts_normalized hs⟩⟩
  · rw [← Text.ofList_toList (s := text), ← htext]
    exact hs.splitFrom
  · simp [Spelling.normalized, Spelling.chars, Spelling.parts]

/-- A URL with a user, an address in brackets, a port and a fragment. -/
def sampleUrl : Url := ⟨"https", "u@[::1]:80", "/a", "/a/", true⟩

theorem parse?_splits_sample :
    parse? "HTTPS://u@[::1]:80/a#x" = some sampleUrl ∧
    sampleUrl.SplitFrom "HTTPS://u@[::1]:80/a#x" ∧
    parse? (sampleUrl.scheme ++ "://" ++ sampleUrl.authority ++ sampleUrl.normalizedPath) =
      some { sampleUrl with path := sampleUrl.normalizedPath } := by
  have hparse : parse? "HTTPS://u@[::1]:80/a#x" = some sampleUrl := by decide +kernel
  exact ⟨hparse, parse?_splits hparse⟩

end Url
end EndpointRules
