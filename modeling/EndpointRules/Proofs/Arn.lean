import EndpointRules.Function.Registry
import EndpointRules.Proofs.Text.Pieces
import Mathlib.Data.String.Basic

/-! Resource names read and put together. A text is read as a resource name exactly when it is put
together from a heading and a resource that fit, and whatever separators stand between the pieces of
the resource, the parts that it was put together from are those that are read. -/

namespace EndpointRules.Arn

/-- What stands in front of the resource in a resource name. -/
structure Heading where
  partition : Text
  service : Text
  region : Text
  accountId : Text

namespace Heading

/-- A resource name put together. -/
def text (h : Heading) (resource : Text) : Text :=
  "arn:" ++ h.partition ++ ":" ++ h.service ++ ":" ++ h.region ++ ":" ++ h.accountId ++ ":" ++
    resource

/-- No field holds a colon, and only region and account may be empty. -/
structure Fits (h : Heading) : Prop where
  partition : .char ':' ∉ h.partition.toList
  service : .char ':' ∉ h.service.toList
  region : .char ':' ∉ h.region.toList
  accountId : .char ':' ∉ h.accountId.toList
  partition_ne : h.partition ≠ ""
  service_ne : h.service ≠ ""

def arn (h : Heading) (pieces : List Text) : Arn :=
  ⟨h.partition, h.service, h.region, h.accountId, pieces⟩

/-- The fields of a resource name by their names, with the pieces of its resource. -/
def record (h : Heading) (pieces : List Text) : Value :=
  .record [("partition", .string h.partition), ("service", .string h.service),
    ("region", .string h.region), ("accountId", .string h.accountId),
    ("resourceId", .list (pieces.map .string))]

end Heading

variable {text resource : Text} {pieces : List Text} {arn : Arn}

private theorem Heading.toList_text (h : Heading) (resource : Text) :
    (h.text resource).toList = Text.toList "arn" ++ .char ':' :: (h.partition.toList ++
      .char ':' :: (h.service.toList ++ .char ':' :: (h.region.toList ++
        .char ':' :: (h.accountId.toList ++ .char ':' :: resource.toList)))) := by
  unfold Heading.text
  simp

/-- A resource is made of pieces without colons and slashes, with any one of these between each two
of them. -/
structure MadeOf (pieces : List Text) (resource : Text) : Prop where
  joined : Text.Joined (fun c : CodePoint => c = ':' ∨ c = '/') (pieces.map Text.toList)
    resource.toList
  plain : ∀ piece ∈ pieces, .char ':' ∉ piece.toList ∧ .char '/' ∉ piece.toList

private theorem madeOf_iff : MadeOf pieces resource ↔
    (resource.toList.splitOnP isResourceSeparator).map Text.ofList = pieces := by
  have hseparator : (isResourceSeparator · = true) = fun c : CodePoint => c = ':' ∨ c = '/' := by
    funext c
    simp [isResourceSeparator]
  have hplain (piece : List CodePoint) :
      (∀ c ∈ piece, isResourceSeparator c = false) ↔ .char ':' ∉ piece ∧ .char '/' ∉ piece := by
    constructor
    · intro h
      exact ⟨fun hc => absurd (h _ hc) (by decide), fun hc => absurd (h _ hc) (by decide)⟩
    · rintro ⟨hcolon, hslash⟩ c hc
      rw [isResourceSeparator, Bool.or_eq_false_iff, beq_eq_false_iff_ne, beq_eq_false_iff_ne]
      exact ⟨fun h => hcolon (h ▸ hc), fun h => hslash (h ▸ hc)⟩
  have hmap (found : List (List CodePoint)) :
      found.map Text.ofList = pieces ↔ found = pieces.map Text.toList := by
    constructor
    · rintro rfl
      rw [List.map_map]
      exact (List.map_id found).symm
    · rintro rfl
      rw [List.map_map]
      exact List.map_id pieces
  rw [hmap, Text.splitOnP_eq_iff, hseparator, List.forall_mem_map]
  simp only [hplain]
  exact ⟨fun h => ⟨h.joined, h.plain⟩, fun h => ⟨h.1, h.2⟩⟩

private theorem MadeOf.ne_nil (h : MadeOf pieces resource) : pieces ≠ [] := by
  rintro rfl
  exact h.joined.ne_nil rfl

/-- Only an empty resource is one empty piece. -/
private theorem MadeOf.eq_singleton_iff (h : MadeOf pieces resource) :
    pieces = [("" : Text)] ↔ resource = "" := by
  have hpieces := madeOf_iff.mp h
  constructor
  · rintro rfl
    have hempty : resource.toList = [] := h.joined.eq_of_singleton
    exact Text.toList_eq_nil_iff.mp hempty
  · rintro rfl
    exact hpieces.symm

private theorem cuts_iff {cs a b c d e f : List CodePoint} :
    Text.splitFirst ':' 5 cs = [a, b, c, d, e, f] ↔
      (.char ':' ∉ a ∧ .char ':' ∉ b ∧ .char ':' ∉ c ∧ .char ':' ∉ d ∧ .char ':' ∉ e) ∧
      cs = a ++ .char ':' :: (b ++ .char ':' :: (c ++ .char ':' ::
        (d ++ .char ':' :: (e ++ .char ':' :: f)))) := by
  simp only [Text.splitFirst_succ_eq_cons_iff, Text.splitFirst_zero_eq_singleton_iff]
  constructor
  · rintro ⟨_, rfl, ha, _, rfl, hb, _, rfl, hc, _, rfl, hd, _, rfl, he, rfl⟩
    exact ⟨⟨ha, hb, hc, hd, he⟩, rfl⟩
  · rintro ⟨⟨ha, hb, hc, hd, he⟩, rfl⟩
    exact ⟨_, rfl, ha, _, rfl, hb, _, rfl, hc, _, rfl, hd, _, rfl, he, rfl⟩

/-- A text is read exactly when it is put together from parts that fit, and then as these. -/
private theorem parse?_eq_some_iff : parse? text = some arn ↔
    ∃ (h : Heading) (resource : Text) (pieces : List Text), h.Fits ∧ resource ≠ "" ∧
      MadeOf pieces resource ∧ text = h.text resource ∧ h.arn pieces = arn := by
  constructor
  · intro hparse
    rw [parse?] at hparse
    split at hparse
    · next start partition service region account resource hcuts =>
      obtain ⟨⟨-, hpartition, hservice, hregion, haccount⟩, htext⟩ := cuts_iff.mp hcuts
      split at hparse
      · next hfits =>
        obtain ⟨rfl, hp, hs, hr⟩ := hfits
        cases hparse
        have hmade : MadeOf _ (Text.ofList resource) := madeOf_iff.mpr rfl
        rw [Text.toList_ofList] at hmade
        refine ⟨⟨Text.ofList partition, Text.ofList service, Text.ofList region,
          Text.ofList account⟩, Text.ofList resource, _, ?_, ?_, hmade, ?_, rfl⟩
        · constructor <;> simpa
        · simpa
        · apply Text.toList_inj.mp
          simp [Heading.toList_text, htext]
      · cases hparse
    · cases hparse
  · rintro ⟨h, resource, pieces, hfits, hresource, hpieces, rfl, rfl⟩
    have hcuts : Text.splitFirst ':' 5 (h.text resource).toList = [Text.toList "arn",
        h.partition.toList, h.service.toList, h.region.toList, h.accountId.toList,
        resource.toList] :=
      cuts_iff.mpr ⟨⟨by decide, hfits.partition, hfits.service, hfits.region, hfits.accountId⟩,
        h.toList_text resource⟩
    have hne : Text.toList "arn" = Text.toList "arn" ∧ h.partition.toList ≠ [] ∧
        h.service.toList ≠ [] ∧ resource.toList ≠ [] := by
      simp [hfits.partition_ne, hfits.service_ne, hresource]
    rw [parse?, hcuts]
    refine (if_pos hne).trans ?_
    simp only [madeOf_iff.mp hpieces, Text.ofList_toList, Heading.arn]

private theorem exists_madeOf (resource : Text) : ∃ pieces, MadeOf pieces resource :=
  ⟨_, madeOf_iff.mpr rfl⟩

private theorem parse?_text {h : Heading} (hfits : h.Fits) (hpieces : MadeOf pieces resource)
    (hne : resource ≠ "") : parse? (h.text resource) = some (h.arn pieces) :=
  parse?_eq_some_iff.mpr ⟨h, resource, pieces, hfits, hne, hpieces, rfl, rfl⟩

/-- The function for resource names answers with a record exactly for the texts that are put
together from a heading and a resource that fit. The record has the fields of the heading and pieces
that make up the resource. Whatever fits is read back: the heading, and all pieces of a resource
that is not empty, with any choice of separators between them. -/
theorem parseArn_inverts (t : Text) :
    (∃ answer : Option Value,
      Registry.standard.call (.text "aws.parseArn") [some (.string t)] = .ok answer ∧
      (answer.isSome ↔ ∃ (h : Heading) (resource : Text),
        h.Fits ∧ resource ≠ "" ∧ t = h.text resource)) ∧
    (∀ (h : Heading) (resource : Text), h.Fits → resource ≠ "" → t = h.text resource →
      ∃ pieces, pieces ≠ [] ∧ MadeOf pieces resource ∧
        Registry.standard.call (.text "aws.parseArn") [some (.string t)] =
          .ok (some (h.record pieces))) ∧
    (∀ (h : Heading) (pieces : List Text) (resource : Text), h.Fits →
      MadeOf pieces resource → pieces ≠ [("" : Text)] →
      Registry.standard.call (.text "aws.parseArn") [some (.string (h.text resource))] =
        .ok (some (h.record pieces))) := by
  have hcall (text : Text) : Registry.standard.call (.text "aws.parseArn")
      [some (.string text)] = .ok ((parse? text).map toValue) := rfl
  have hread {h : Heading} {pieces : List Text} {resource : Text} (hfits : h.Fits)
      (hpieces : MadeOf pieces resource) (hne : resource ≠ "") :
      Registry.standard.call (.text "aws.parseArn") [some (.string (h.text resource))] =
        .ok (some (h.record pieces)) := by
    rw [hcall, parse?_text hfits hpieces hne]
    rfl
  refine ⟨⟨_, hcall t, ?_⟩, ?_, ?_⟩
  · rw [Option.isSome_map, Option.isSome_iff_exists]
    constructor
    · rintro ⟨arn, harn⟩
      obtain ⟨h, resource, -, hfits, hne, -, ht, -⟩ := parse?_eq_some_iff.mp harn
      exact ⟨h, resource, hfits, hne, ht⟩
    · rintro ⟨h, resource, hfits, hne, rfl⟩
      obtain ⟨pieces, hpieces⟩ := exists_madeOf resource
      exact ⟨_, parse?_text hfits hpieces hne⟩
  · rintro h resource hfits hne rfl
    obtain ⟨pieces, hpieces⟩ := exists_madeOf resource
    exact ⟨pieces, hpieces.ne_nil, hpieces, hread hfits hpieces hne⟩
  · intro h pieces resource hfits hpieces hne
    exact hread hfits hpieces fun hempty => hne (hpieces.eq_singleton_iff.mpr hempty)

/-- A heading without a region and an account. -/
def sampleHeading : Heading := ⟨"aws", "s3", "", ""⟩

private theorem sampleHeading_fits : sampleHeading.Fits := by
  constructor <;> decide

private theorem madeOf_sample : MadeOf ["a", "", "b"] "a:/b" where
  joined := .more [.char 'a'] (.inl rfl) (.more [] (.inr rfl) (.last [.char 'b']))
  plain := by decide

theorem parseArn_inverts_sample : sampleHeading.Fits ∧ MadeOf ["a", "", "b"] "a:/b" ∧
    Registry.standard.call (.text "aws.parseArn") [some (.string "arn:aws:s3:::a:/b")] =
      .ok (some (sampleHeading.record ["a", "", "b"])) :=
  ⟨sampleHeading_fits, madeOf_sample,
    (parseArn_inverts "").2.2 sampleHeading ["a", "", "b"] "a:/b" sampleHeading_fits madeOf_sample
      (by decide)⟩

end EndpointRules.Arn
