import EndpointRules.Function.Registry
import EndpointRules.Proofs.Text.Pieces

/-! Labels of host names. The texts that are accepted as host labels, and as buckets that can stand
in front of a host name, are made of labels of 1 to 63 letters, digits and hyphens, behind each of
which one line feed may stand. -/

namespace EndpointRules

namespace Uri
variable {cs : List CodePoint} {allow : Bool}

/-- A host label: 1 to 63 ASCII letters, digits and hyphens with no hyphen at either end. -/
structure HostLabel (cs : List CodePoint) : Prop where
  length : 1 ≤ cs.length ∧ cs.length ≤ 63
  chars : ∀ c ∈ cs, ('A' ≤ c ∧ c ≤ 'Z') ∨ ('a' ≤ c ∧ c ≤ 'z') ∨ ('0' ≤ c ∧ c ≤ '9') ∨ c = '-'
  head : cs.head? ≠ some (.char '-')
  last : cs.getLast? ≠ some (.char '-')

/-- A host label that may have a line feed behind it. -/
def LabelLine (cs : List CodePoint) : Prop :=
  HostLabel cs ∨ ∃ label, HostLabel label ∧ cs = label ++ [.char '\n']

private theorem labelChar_iff {c : CodePoint} : (Text.isAlphanumeric c || c == '-') = true ↔
    ('A' ≤ c ∧ c ≤ 'Z') ∨ ('a' ≤ c ∧ c ≤ 'z') ∨ ('0' ≤ c ∧ c ≤ '9') ∨ c = '-' := by
  rw [Bool.or_eq_true, Text.isAlphanumeric_iff, beq_iff_eq, or_assoc, or_assoc]

/-- An end of a label is a letter or digit because it is one of its characters and no hyphen. -/
private theorem any_end_iff {c? : Option CodePoint} (hc : ∀ c ∈ c?, c ∈ cs)
    (hall : ∀ c ∈ cs, (Text.isAlphanumeric c || c == '-') = true) :
    c?.any Text.isAlphanumeric = true ↔ c?.isSome ∧ c? ≠ some (.char '-') := by
  cases c? with
  | none => simp
  | some c =>
    have hchar := hall c (hc c rfl)
    rw [Bool.or_eq_true, beq_iff_eq] at hchar
    constructor
    · intro halpha
      refine ⟨rfl, fun h => ?_⟩
      cases h
      exact absurd halpha (by decide)
    · rintro ⟨-, hne⟩
      exact hchar.resolve_right fun h => hne (congrArg some h)

private theorem isPlainLabel_iff : isPlainLabel cs = true ↔ HostLabel cs := by
  simp only [isPlainLabel, Bool.and_eq_true, decide_eq_true_eq, List.all_eq_true]
  have hhead : ∀ c ∈ cs.head?, c ∈ cs := fun c hc => List.mem_of_mem_head? hc
  have hlast : ∀ c ∈ cs.getLast?, c ∈ cs := fun c hc => List.mem_of_mem_getLast? hc
  constructor
  · rintro ⟨⟨⟨hlength, hfirst⟩, hend⟩, hall⟩
    obtain ⟨hsome, hfirst⟩ := (any_end_iff hhead hall).mp hfirst
    have hne : cs ≠ [] := List.isSome_head?.mp hsome
    exact ⟨⟨List.length_pos_iff.mpr hne, hlength⟩, fun c hc => labelChar_iff.mp (hall c hc), hfirst,
      ((any_end_iff hlast hall).mp hend).2⟩
  · intro h
    have hall : ∀ c ∈ cs, (Text.isAlphanumeric c || c == '-') = true := fun c hc =>
      labelChar_iff.mpr (h.chars c hc)
    have hne : cs ≠ [] := List.length_pos_iff.mp h.length.1
    refine ⟨⟨⟨h.length.2, ?_⟩, ?_⟩, hall⟩
    · exact (any_end_iff hhead hall).mpr ⟨List.isSome_head?.mpr hne, h.head⟩
    · exact (any_end_iff hlast hall).mpr ⟨List.getLast?_isSome.mpr hne, h.last⟩

private theorem HostLabel.not_mem_lineFeed (h : HostLabel cs) : .char '\n' ∉ cs := fun hmem =>
  absurd (h.chars _ hmem) (by decide)

private theorem isLabel_iff : isLabel cs = true ↔ LabelLine cs := by
  rw [isLabel, isPlainLabel_iff, Text.dropFinalNewline]
  split
  · next hlast =>
    have hcs : cs.dropLast ++ [.char '\n'] = cs := List.dropLast_append_getLast? _ hlast
    constructor
    · intro h
      exact .inr ⟨cs.dropLast, h, hcs.symm⟩
    · rintro (h | ⟨label, h, rfl⟩)
      · exact absurd (List.mem_of_mem_getLast? hlast) h.not_mem_lineFeed
      · rwa [List.dropLast_concat]
  · next hlast =>
    refine ⟨.inl, fun h => ?_⟩
    rcases h with h | ⟨label, -, rfl⟩
    · exact h
    · exact absurd List.getLast?_concat hlast

/-- Without a line feed there is no difference. -/
private theorem labelLine_iff (h : .char '\n' ∉ cs) : LabelLine cs ↔ HostLabel cs := by
  refine ⟨fun hline => ?_, .inl⟩
  rcases hline with hlabel | ⟨label, -, rfl⟩
  · exact hlabel
  · exact absurd List.mem_concat_self h

instance : DecidablePred LabelLine := fun _ => decidable_of_iff _ isLabel_iff

instance : DecidablePred HostLabel := fun _ => decidable_of_iff _ isPlainLabel_iff

/-- A label of some kind or, where subdomains are allowed, one in each piece between dots. -/
def NamesHost (IsLabel : List CodePoint → Prop) (allow : Bool) (cs : List CodePoint) : Prop :=
  if allow then ∀ piece ∈ cs.splitOn (.char '.'), IsLabel piece else IsLabel cs

instance (IsLabel : List CodePoint → Prop) [DecidablePred IsLabel] :
    Decidable (NamesHost IsLabel allow cs) :=
  inferInstanceAs (Decidable (if allow then _ else _))

private theorem isHostLabel_iff : isHostLabel allow cs = true ↔ NamesHost LabelLine allow cs := by
  rw [isHostLabel, NamesHost]
  split
  · simp only [List.all_eq_true, isLabel_iff]
  · exact isLabel_iff

/-- Pieces of a text without a line feed have none. -/
private theorem namesHost_iff (h : .char '\n' ∉ cs) :
    NamesHost LabelLine allow cs ↔ NamesHost HostLabel allow cs := by
  rw [NamesHost, NamesHost]
  split
  · refine forall₂_congr fun piece hpiece => labelLine_iff fun hmem => h ?_
    exact ((Text.joined_splitOnP _ cs).infix_of_mem hpiece).subset hmem
  · exact labelLine_iff h

/-- What a bucket has to be besides a text of host labels. -/
def Hostable (cs : List CodePoint) : Prop :=
  (3 ≤ cs.length ∧ cs.length ≤ 63) ∧ (∀ c ∈ cs, ¬ ('A' ≤ c ∧ c ≤ 'Z')) ∧ isIpAddress cs = false

private theorem isHostableBucket_iff : isHostableBucket allow cs = true ↔
    NamesHost LabelLine allow cs ∧ Hostable cs := by
  simp only [isHostableBucket, Bool.and_eq_true, decide_eq_true_eq, Bool.not_eq_true',
    List.any_eq_false, isHostLabel_iff, Hostable, CodePoint.isUpper_iff]
  constructor
  · rintro ⟨⟨⟨hlength, hlower⟩, hip⟩, hnames⟩
    exact ⟨hnames, hlength, hlower, hip⟩
  · rintro ⟨hnames, hlength, hlower, hip⟩
    exact ⟨⟨⟨hlength, hlower⟩, hip⟩, hnames⟩

instance : DecidablePred Hostable := fun _ => inferInstanceAs (Decidable (_ ∧ _))

/-- The function for host labels is true for texts of labels, and the one for buckets for those of
them that are hostable. A line feed behind a label is the only thing by which such a text can differ
from one that is made of host labels. -/
theorem host_names_accepted (s : Text) (allow : Bool) :
    Registry.standard.call (.text "isValidHostLabel") [some (.string s), some (.bool allow)] =
      .ok (some (.bool (decide (NamesHost LabelLine allow s.toList)))) ∧
    Registry.standard.call (.text "aws.isVirtualHostableS3Bucket")
        [some (.string s), some (.bool allow)] =
      .ok (some (.bool (decide (NamesHost LabelLine allow s.toList ∧ Hostable s.toList)))) ∧
    (.char '\n' ∉ s.toList →
      (NamesHost LabelLine allow s.toList ↔ NamesHost HostLabel allow s.toList)) := by
  refine ⟨?_, ?_, namesHost_iff⟩
  · have hanswer : isHostLabel allow s.toList = decide (NamesHost LabelLine allow s.toList) :=
      Bool.eq_iff_iff.mpr (isHostLabel_iff.trans decide_eq_true_iff.symm)
    rw [← hanswer]
    rfl
  · have hanswer : isHostableBucket allow s.toList =
        decide (NamesHost LabelLine allow s.toList ∧ Hostable s.toList) :=
      Bool.eq_iff_iff.mpr (isHostableBucket_iff.trans decide_eq_true_iff.symm)
    rw [← hanswer]
    rfl

theorem host_names_accepted_sample : .char '\n' ∉ Text.toList "a-1.B" ∧
    Registry.standard.call (.text "isValidHostLabel")
      [some (.string "a-1.B"), some (.bool true)] = .ok (some (.bool true)) ∧
    (NamesHost LabelLine true (Text.toList "a-1.B") ↔
      NamesHost HostLabel true (Text.toList "a-1.B")) := by
  have hplain : .char '\n' ∉ Text.toList "a-1.B" := by decide
  obtain ⟨hanswer, -, hsame⟩ := host_names_accepted "a-1.B" true
  have hlabels : decide (NamesHost LabelLine true (Text.toList "a-1.B")) = true := by decide
  rw [hlabels] at hanswer
  exact ⟨hplain, hanswer, hsame hplain⟩

/-- A line feed is accepted behind a label and behind a piece of a bucket, although no host name
has it. -/
theorem lineFeed_accepted :
    ¬ (Registry.standard.call (.text "isValidHostLabel")
        [some (.string "foo\n"), some (.bool false)] = .ok (some (.bool true)) ↔
      NamesHost HostLabel false (Text.toList "foo\n")) ∧
    ¬ (Registry.standard.call (.text "aws.isVirtualHostableS3Bucket")
        [some (.string "a\n.b"), some (.bool true)] = .ok (some (.bool true)) ↔
      NamesHost HostLabel true (Text.toList "a\n.b") ∧ Hostable (Text.toList "a\n.b")) := by
  decide

end Uri
end EndpointRules
