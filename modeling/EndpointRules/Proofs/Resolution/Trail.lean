import EndpointRules.Proofs.Document.Paths
import Mathlib.Data.List.Lex

/-! The lines about rules that are tried one after another. Their grammar follows the rules: a rule
fails, ends the walk, or is matched and has the lines about its children inside its own. Order and
nesting of the lines are read off the grammar. -/

namespace EndpointRules

namespace Event

/-- The path of the rule that is reported as failed or matched. -/
def subject? : Event → Option Text
  | .failed path _ | .matched _ path => some path
  | _ => none

/-- The path of the rule that a line is about. -/
def rule? : Event → Option Text
  | .failed path _ | .matched _ path | .exhausted path => some path
  | _ => none

private theorem rule?_of_subject? {e : Event} {path : Text} (h : e.subject? = some path) :
    e.rule? = some path := by
  cases e <;> first | exact h | cases h

end Event

/-- The lines about rules that are tried one after another, of which the first stands at an index
below a position. They may end early: `through` tells that all rules have given nothing. -/
inductive Trail : List Nat → Nat → List Rule → (through : Bool) → List Event → Prop
  | done {position : List Nat} {index : Nat} : Trail position index [] true []
  | raised {position : List Nat} {index : Nat} {rule : Rule} {rest : List Rule} :
      Trail position index (rule :: rest) false []
  | failed {position : List Nat} {index : Nat} {rule : Rule} {rest : List Rule} {through : Bool}
      {notes : List Event} (n : Nat) : Trail position (index + 1) rest through notes →
      Trail position index (rule :: rest) through
        (.failed (rulePath (position ++ [index])) n :: notes)
  | ended {position : List Nat} {index : Nat} {rule : Rule} {rest : List Rule} :
      rule.kind ≠ .tree → Trail position index (rule :: rest) false
        [.matched rule.kind (rulePath (position ++ [index]))]
  | inside {position : List Nat} {index : Nat} {head : RuleHead} {rules rest : List Rule}
      {notes : List Event} : Trail (position ++ [index]) 0 rules false notes →
      Trail position index (.tree head rules :: rest) false
        (.matched .tree (rulePath (position ++ [index])) :: notes)
  | exhausted {position : List Nat} {index : Nat} {head : RuleHead} {rules rest : List Rule}
      {through : Bool} {notes more : List Event} : Trail (position ++ [index]) 0 rules true notes →
      Trail position (index + 1) rest through more →
      Trail position index (.tree head rules :: rest) through
        (.matched .tree (rulePath (position ++ [index])) ::
          (notes ++ .exhausted (rulePath (position ++ [index])) :: more))

namespace Rule
variable {index : Nat} {rule : Rule} {rules rest : List Rule} {subject : List Nat}

/-- There is a rule at a position among rules that are counted from an index on, or below one. -/
def HasFrom (index : Nat) (rules : List Rule) (subject : List Nat) : Prop :=
  ∃ i further rule, subject = (index + i) :: further ∧
    (rules[i]?.bind fun child => child.at? further) = some rule

private theorem HasFrom.here : HasFrom index (rule :: rest) [index] :=
  ⟨0, [], rule, rfl, by rw [List.getElem?_cons_zero, Option.bind_some, at?]⟩

private theorem HasFrom.later (h : HasFrom (index + 1) rest subject) :
    HasFrom index (rule :: rest) subject := by
  obtain ⟨i, further, found, rfl, hfound⟩ := h
  refine ⟨i + 1, further, found, ?_, hfound⟩
  rw [Nat.add_right_comm, Nat.add_assoc]

private theorem HasFrom.inside {head : RuleHead} (h : HasFrom 0 rules subject) :
    HasFrom index (.tree head rules :: rest) (index :: subject) := by
  obtain ⟨i, further, found, rfl, hfound⟩ := h
  refine ⟨0, (0 + i) :: further, found, rfl, ?_⟩
  rw [List.getElem?_cons_zero, Option.bind_some, at?, Nat.zero_add]
  exact hfound

private theorem HasFrom.ne_nil (h : HasFrom index rules subject) : subject ≠ [] := by
  obtain ⟨i, further, found, rfl, -⟩ := h
  exact List.cons_ne_nil _ _

/-- Rules further on come after everything below an earlier one. -/
private theorem HasFrom.lt (h : HasFrom (index + 1) rules subject) (further : List Nat) :
    index :: further < subject := by
  obtain ⟨i, below, found, rfl, -⟩ := h
  rw [List.cons_lt_cons_iff]
  omega

end Rule

/-- A rule comes before what is below it, which keeps its order. -/
private theorem pairwise_below {index : Nat} {subjects : List (List Nat)}
    (h : subjects.Pairwise (· < ·)) (hne : ∀ subject ∈ subjects, subject ≠ []) :
    ([index] :: subjects.map (index :: ·)).Pairwise (· < ·) := by
  have hcons (first second : List Nat) : index :: first < index :: second ↔ first < second := by
    simp
  refine .cons (List.forall_mem_map.mpr fun subject hsubject => ?_) ?_
  · obtain ⟨i, further, rfl⟩ := List.exists_cons_of_ne_nil (hne subject hsubject)
    exact (hcons [] _).mpr (List.nil_lt_cons _ _)
  · rw [List.pairwise_map]
    exact h.imp fun hlt => (hcons _ _).mpr hlt

section Splits
variable {α : Type} {P : List α → α → Prop} {x : α} {xs ys : List α}

/-- What stands in front of the elements of a list is looked at for the first one apart. -/
private theorem forall_split_cons (hx : P [] x)
    (hxs : ∀ before e after, xs = before ++ e :: after → P (x :: before) e) :
    ∀ before e after, x :: xs = before ++ e :: after → P before e := by
  intro before e after h
  cases before with
  | nil =>
    cases h
    exact hx
  | cons first before =>
    cases h
    exact hxs before e after rfl

theorem forall_split_append
    (hxs : ∀ before e after, xs = before ++ e :: after → P before e)
    (hys : ∀ before e after, ys = before ++ e :: after → P (xs ++ before) e) :
    ∀ before e after, xs ++ ys = before ++ e :: after → P before e := by
  induction xs generalizing P with
  | nil => exact hys
  | cons x xs ih =>
    refine forall_split_cons (hxs [] x xs rfl) (ih ?_ hys)
    exact fun before e after h => hxs (x :: before) e after (congrArg (x :: ·) h)

end Splits

/-- Behind some lines, a line below a child of a position stands inside the lines of the tree rule
above it. -/
def NestedAt (position : List Nat) (before : List Event) (e : Event) : Prop :=
  ∀ inner i, e.subject? = some (rulePath (position ++ inner ++ [i])) → inner ≠ [] →
    .matched .tree (rulePath (position ++ inner)) ∈ before ∧
      .exhausted (rulePath (position ++ inner)) ∉ before

section NestedAt
variable {position : List Nat} {before : List Event} {e : Event}

private theorem NestedAt.of_child {index : Nat}
    (h : e.subject? = some (rulePath (position ++ [index]))) : NestedAt position before e := by
  intro inner i he hne
  have hpaths := rulePath_inj (Option.some.inj (h.symm.trans he))
  rw [List.append_assoc] at hpaths
  cases inner with
  | nil => exact absurd rfl hne
  | cons first rest => simpa using List.append_cancel_left hpaths

private theorem NestedAt.cons (h : NestedAt position before e) (line : Event)
    (hline : ∀ path, line ≠ .exhausted path) : NestedAt position (line :: before) e := by
  intro inner i he hne
  obtain ⟨hmatched, hexhausted⟩ := h inner i he hne
  refine ⟨List.mem_cons_of_mem _ hmatched, fun hmem => ?_⟩
  obtain hmem | hmem := List.mem_cons.mp hmem
  · exact hline _ hmem.symm
  · exact hexhausted hmem

end NestedAt

namespace Trail
variable {position : List Nat} {index : Nat} {rules : List Rule} {through : Bool}
  {notes before after : List Event} {e : Event}

/-- The lines of a trail are about rules below its position, from its index on. -/
theorem exists_rule (h : Trail position index rules through notes) (he : e ∈ notes) :
    ∃ i further, index ≤ i ∧ e.rule? = some (rulePath (position ++ i :: further)) := by
  induction h with
  | done | raised => cases he
  | failed n _ ih =>
    obtain rfl | he := List.mem_cons.mp he
    · exact ⟨_, [], Nat.le_refl _, rfl⟩
    · obtain ⟨i, further, hi, hrule⟩ := ih he
      exact ⟨i, further, Nat.le_of_succ_le hi, hrule⟩
  | ended =>
    obtain rfl := List.mem_singleton.mp he
    exact ⟨_, [], Nat.le_refl _, rfl⟩
  | @inside position index head rules rest notes _ ih =>
    obtain rfl | he := List.mem_cons.mp he
    · exact ⟨_, [], Nat.le_refl _, rfl⟩
    · obtain ⟨i, further, -, hrule⟩ := ih he
      rw [List.append_assoc] at hrule
      exact ⟨index, i :: further, Nat.le_refl _, hrule⟩
  | @exhausted position index head rules rest through notes more _ _ ih ihMore =>
    obtain rfl | he := List.mem_cons.mp he
    · exact ⟨_, [], Nat.le_refl _, rfl⟩
    · obtain he | he := List.mem_append.mp he
      · obtain ⟨i, further, -, hrule⟩ := ih he
        rw [List.append_assoc] at hrule
        exact ⟨index, i :: further, Nat.le_refl _, hrule⟩
      · obtain rfl | he := List.mem_cons.mp he
        · exact ⟨_, [], Nat.le_refl _, rfl⟩
        · obtain ⟨i, further, hi, hrule⟩ := ihMore he
          exact ⟨i, further, Nat.le_of_succ_le hi, hrule⟩

/-- The rules that are reported as failed or matched are in the order of the document. -/
theorem subjects (h : Trail position index rules through notes) :
    ∃ subjects : List (List Nat),
      notes.filterMap Event.subject? =
        subjects.map (fun further => rulePath (position ++ further)) ∧
      subjects.Pairwise (· < ·) ∧ ∀ subject ∈ subjects, Rule.HasFrom index rules subject := by
  induction h with
  | done | raised => exact ⟨[], rfl, .nil, nofun⟩
  | @failed position index rule rest through notes n _ ih =>
    obtain ⟨subjects, hnotes, horder, hfound⟩ := ih
    refine ⟨[index] :: subjects, ?_, ?_, ?_⟩
    · simp only [List.filterMap_cons, Event.subject?, hnotes, List.map_cons]
    · exact .cons (fun subject hsubject => (hfound subject hsubject).lt []) horder
    · exact List.forall_mem_cons.mpr
        ⟨.here, fun subject hsubject => (hfound subject hsubject).later⟩
  | @ended position index rule rest hk =>
    exact ⟨[[index]], rfl, List.pairwise_singleton _ _, List.forall_mem_singleton.mpr .here⟩
  | @inside position index head rules rest notes _ ih =>
    obtain ⟨subjects, hnotes, horder, hfound⟩ := ih
    refine ⟨[index] :: subjects.map (index :: ·), ?_, ?_, ?_⟩
    · simp only [List.filterMap_cons, Event.subject?, hnotes, List.map_cons, List.map_map,
        Function.comp_def, List.append_assoc, List.singleton_append]
    · exact pairwise_below horder fun subject hsubject => (hfound subject hsubject).ne_nil
    · refine List.forall_mem_cons.mpr ⟨.here, List.forall_mem_map.mpr fun subject hsubject => ?_⟩
      exact (hfound subject hsubject).inside
  | @exhausted position index head rules rest through notes more _ _ ih ihMore =>
    obtain ⟨subjects, hnotes, horder, hfound⟩ := ih
    obtain ⟨others, hmore, horderMore, hothers⟩ := ihMore
    refine ⟨([index] :: subjects.map (index :: ·)) ++ others, ?_, ?_, ?_⟩
    · simp only [List.filterMap_cons, Event.subject?, List.filterMap_append, hnotes, hmore,
        List.map_append, List.map_cons, List.map_map, Function.comp_def, List.append_assoc,
        List.cons_append, List.nil_append]
    · refine List.pairwise_append.mpr
        ⟨pairwise_below horder fun subject hsubject => (hfound subject hsubject).ne_nil,
          horderMore, ?_⟩
      intro subject hsubject other hother
      obtain rfl | hsubject := List.mem_cons.mp hsubject
      · exact (hothers other hother).lt []
      · obtain ⟨below, -, rfl⟩ := List.mem_map.mp hsubject
        exact (hothers other hother).lt below
    · refine List.forall_mem_append.mpr ⟨List.forall_mem_cons.mpr ⟨.here, ?_⟩, ?_⟩
      · exact List.forall_mem_map.mpr fun subject hsubject => (hfound subject hsubject).inside
      · exact fun other hother => (hothers other hother).later

/-- No line of a trail is about its own position. -/
theorem exhausted_not_mem (h : Trail position index rules through notes) :
    .exhausted (rulePath position) ∉ notes := by
  intro hmem
  obtain ⟨i, further, -, hrule⟩ := h.exists_rule hmem
  have hpaths : position = position ++ i :: further := rulePath_inj (Option.some.inj hrule)
  simp at hpaths

/-- What is nested below a child stands behind the line that the child is matched. -/
private theorem nestedAt_inside (h : Trail (position ++ [index]) 0 rules through notes)
    (hnotes : notes = before ++ e :: after) (hnested : NestedAt (position ++ [index]) before e) :
    NestedAt position (.matched .tree (rulePath (position ++ [index])) :: before) e := by
  intro inner i he hne
  obtain ⟨j, further, -, hrule⟩ := h.exists_rule (e := e) (by rw [hnotes]; simp)
  have hpath : inner ++ [i] = index :: j :: further := by
    have hpaths := rulePath_inj (Option.some.inj ((Event.rule?_of_subject? he).symm.trans hrule))
    rw [List.append_assoc, List.append_assoc] at hpaths
    exact List.append_cancel_left hpaths
  obtain ⟨k, below, rfl⟩ := List.exists_cons_of_ne_nil hne
  obtain ⟨rfl, -⟩ := List.cons.inj hpath
  cases below with
  | nil =>
    refine ⟨List.mem_cons_self, fun hmem => ?_⟩
    obtain hmem | hmem := List.mem_cons.mp hmem
    · cases hmem
    · exact h.exhausted_not_mem (hnotes ▸ List.mem_append_left _ hmem)
  | cons first rest =>
    have hsame : position ++ [k] ++ first :: rest = position ++ k :: first :: rest := by
      rw [List.append_assoc, List.singleton_append]
    have hdeeper := hnested.cons (.matched .tree (rulePath (position ++ [k]))) nofun
    rw [← hsame] at he ⊢
    exact hdeeper (first :: rest) i he (List.cons_ne_nil _ _)

/-- A rule below another one is reported behind the line that the other one is matched, and not
behind a line that the other one is exhausted. -/
theorem nested (h : Trail position index rules through notes) :
    ∀ before e after, notes = before ++ e :: after → NestedAt position before e := by
  induction h with
  | done | raised => exact fun before e after hnotes => by simp at hnotes
  | failed n _ ih =>
    refine forall_split_cons (.of_child rfl) fun before e after hnotes => ?_
    exact (ih before e after hnotes).cons _ nofun
  | ended =>
    refine forall_split_cons (.of_child rfl) fun before e after hnotes => ?_
    simp at hnotes
  | inside hinside ih =>
    refine forall_split_cons (.of_child rfl) fun before e after hnotes => ?_
    exact hinside.nestedAt_inside hnotes (ih before e after hnotes)
  | @exhausted position index head rules rest through notes more hinside hmore ih ihMore =>
    refine forall_split_cons (.of_child rfl) ?_
    refine forall_split_append (fun before e after hnotes => ?_) ?_
    · exact hinside.nestedAt_inside hnotes (ih before e after hnotes)
    refine forall_split_cons (fun inner i he => nomatch he) fun before e after hnotes => ?_
    obtain ⟨j, further, hj, hrule⟩ := hmore.exists_rule (e := e) (by rw [hnotes]; simp)
    intro inner i he hne
    -- the rule and the one above it come after everything in the tree that is exhausted
    have hpath : inner ++ [i] = j :: further := by
      have hpaths := rulePath_inj
        (Option.some.inj ((Event.rule?_of_subject? he).symm.trans hrule))
      rw [List.append_assoc] at hpaths
      exact List.append_cancel_left hpaths
    obtain ⟨k, below, rfl⟩ := List.exists_cons_of_ne_nil hne
    obtain ⟨rfl, -⟩ := List.cons.inj hpath
    obtain ⟨hmatched, hexhausted⟩ := ihMore before e after hnotes (k :: below) i he hne
    refine ⟨by simp [hmatched], ?_⟩
    intro hmem
    obtain hmem | hmem := List.mem_cons.mp hmem
    · cases hmem
    obtain hmem | hmem := List.mem_append.mp hmem
    · obtain ⟨j, further, -, hearlier⟩ := hinside.exists_rule hmem
      have hpaths := rulePath_inj (Option.some.inj hearlier)
      rw [List.append_assoc] at hpaths
      have hindex := (List.cons.inj (List.append_cancel_left hpaths)).1
      omega
    obtain hmem | hmem := List.mem_cons.mp hmem
    · have hpaths := rulePath_inj (Event.exhausted.inj hmem)
      have hindex := (List.cons.inj (List.append_cancel_left hpaths)).1
      omega
    · exact hexhausted hmem

/-- A line about an endpoint or an error that is matched is the last one. -/
theorem last_of_end (h : Trail position index rules through notes) {kind : RuleKind} {path : Text}
    (hk : kind ≠ .tree) (hmem : .matched kind path ∈ notes) :
    through = false ∧ notes.getLast? = some (.matched kind path) := by
  induction h with
  | done | raised => cases hmem
  | failed n _ ih =>
    obtain hmem | hmem := List.mem_cons.mp hmem
    · cases hmem
    · obtain ⟨hthrough, hlast⟩ := ih hmem
      exact ⟨hthrough, by rw [List.getLast?_cons, hlast]; rfl⟩
  | ended =>
    obtain hmem := List.mem_singleton.mp hmem
    exact ⟨rfl, by rw [hmem]; rfl⟩
  | inside _ ih =>
    obtain hmem | hmem := List.mem_cons.mp hmem
    · cases hmem
      exact absurd rfl hk
    · obtain ⟨-, hlast⟩ := ih hmem
      exact ⟨rfl, by rw [List.getLast?_cons, hlast]; rfl⟩
  | exhausted _ _ ih ihMore =>
    obtain hmem | hmem := List.mem_cons.mp hmem
    · cases hmem
      exact absurd rfl hk
    · obtain hmem | hmem := List.mem_append.mp hmem
      · cases (ih hmem).1
      · obtain hmem | hmem := List.mem_cons.mp hmem
        · cases hmem
        · obtain ⟨hthrough, hlast⟩ := ihMore hmem
          refine ⟨hthrough, ?_⟩
          rw [List.getLast?_cons, List.getLast?_append, List.getLast?_cons, hlast]
          rfl

end Trail

end EndpointRules
