import EndpointRules.Text.Split
import Mathlib.Data.List.Basic

/-! Texts put together from pieces. Whatever separators stand between them, the pieces of a text are
the only ones without a separator from which it can be put together. A text that is cut at a few
occurrences of a character is cut at the first ones. -/

namespace EndpointRules.Text
variable {isSeparator : CodePoint → Bool} {separator : CodePoint} {cs piece next : List CodePoint}
  {pieces : List (List CodePoint)}

/-- A text made of pieces with one separator between each two of them, which may be any. -/
inductive Joined (IsSeparator : CodePoint → Prop) : List (List CodePoint) → List CodePoint → Prop
  | last (piece : List CodePoint) : Joined IsSeparator [piece] piece
  | more (piece : List CodePoint) {c : CodePoint} {pieces : List (List CodePoint)}
      {rest : List CodePoint} :
      IsSeparator c → Joined IsSeparator pieces rest →
      Joined IsSeparator (piece :: pieces) (piece ++ c :: rest)

namespace Joined
variable {IsSeparator : CodePoint → Prop}

theorem ne_nil (h : Joined IsSeparator pieces cs) : pieces ≠ [] := by
  cases h <;> exact List.cons_ne_nil _ _

theorem eq_of_singleton (h : Joined IsSeparator [piece] cs) : cs = piece := by
  cases h with
  | last => rfl
  | more _ _ hrest => exact absurd rfl hrest.ne_nil

/-- A character in front of a text stands in front of its first piece. -/
private theorem cons (c : CodePoint) (h : Joined IsSeparator (piece :: pieces) cs) :
    Joined IsSeparator ((c :: piece) :: pieces) (c :: cs) := by
  cases h with
  | last => exact .last (c :: cs)
  | more piece hc hrest => exact .more (c :: piece) hc hrest

/-- A piece is a part of the text. -/
theorem infix_of_mem (h : Joined IsSeparator pieces cs) (hpiece : piece ∈ pieces) :
    piece <:+: cs := by
  induction h with
  | last => exact List.mem_singleton.mp hpiece ▸ List.infix_rfl
  | more first _ _ ih =>
    rcases List.mem_cons.mp hpiece with rfl | hlater
    · exact (List.prefix_append _ _).isInfix
    · exact (ih hlater).trans ((List.suffix_cons _ _).trans (List.suffix_append _ _)).isInfix

/-- Every character of the text is a separator or stands in a piece. -/
theorem mem_piece (h : Joined IsSeparator pieces cs) {c : CodePoint} (hc : c ∈ cs) :
    IsSeparator c ∨ ∃ piece ∈ pieces, c ∈ piece := by
  induction h with
  | last piece => exact .inr ⟨piece, List.mem_cons_self, hc⟩
  | more piece hseparator _ ih =>
    rcases List.mem_append.mp hc with hfirst | hc
    · exact .inr ⟨piece, List.mem_cons_self, hfirst⟩
    · rcases List.mem_cons.mp hc with rfl | hlater
      · exact .inl hseparator
      · exact (ih hlater).imp_right fun ⟨piece, hpiece, hmem⟩ =>
          ⟨piece, List.mem_cons_of_mem _ hpiece, hmem⟩

end Joined

/-- A split text begins with a piece. -/
private theorem exists_splitOnP_eq_cons (isSeparator : CodePoint → Bool) (cs : List CodePoint) :
    ∃ first later, cs.splitOnP isSeparator = first :: later :=
  List.exists_cons_of_ne_nil (List.splitOnP_ne_nil isSeparator cs)

theorem joined_splitOnP (isSeparator : CodePoint → Bool) (cs : List CodePoint) :
    Joined (isSeparator · = true) (cs.splitOnP isSeparator) cs := by
  induction cs with
  | nil => exact .last []
  | cons c rest ih =>
    rw [List.splitOnP_cons_eq_if_modifyHead]
    cases hc : isSeparator c with
    | true => exact .more [] hc ih
    | false =>
      obtain ⟨first, later, hpieces⟩ := exists_splitOnP_eq_cons isSeparator rest
      rw [hpieces] at ih ⊢
      exact ih.cons c

private theorem plain_of_mem_splitOnP (hpiece : piece ∈ cs.splitOnP isSeparator) :
    ∀ c ∈ piece, isSeparator c = false := by
  induction cs generalizing piece with
  | nil => simp_all
  | cons d rest ih =>
    rw [List.splitOnP_cons_eq_if_modifyHead] at hpiece
    cases hd : isSeparator d with
    | true =>
      rw [hd, if_pos rfl] at hpiece
      rcases List.mem_cons.mp hpiece with rfl | hlater
      · exact fun c hc => absurd hc List.not_mem_nil
      · exact ih hlater
    | false =>
      obtain ⟨first, later, hpieces⟩ := exists_splitOnP_eq_cons isSeparator rest
      rw [hd, if_neg Bool.false_ne_true, hpieces, List.modifyHead_cons] at hpiece
      rw [hpieces] at ih
      rcases List.mem_cons.mp hpiece with rfl | hlater
      · exact List.forall_mem_cons.mpr ⟨hd, ih List.mem_cons_self⟩
      · exact ih (List.mem_cons_of_mem _ hlater)

/-- The pieces of a text are the pieces without separators of which it is made. -/
theorem splitOnP_eq_iff : cs.splitOnP isSeparator = pieces ↔
    Joined (isSeparator · = true) pieces cs ∧
      ∀ piece ∈ pieces, ∀ c ∈ piece, isSeparator c = false := by
  constructor
  · rintro rfl
    exact ⟨joined_splitOnP isSeparator cs, fun _ => plain_of_mem_splitOnP⟩
  · rintro ⟨hjoined, hplain⟩
    induction hjoined with
    | last piece => exact List.splitOnP_eq_singleton (hplain piece List.mem_cons_self)
    | more piece hc hrest ih =>
      obtain ⟨hpiece, hpieces⟩ := List.forall_mem_cons.mp hplain
      rw [List.splitOnP_append_cons_of_forall_mem hpiece _ hc, ih hpieces]

/-! Texts cut at the first occurrences of a character. -/

theorem splitFirst_zero_eq_singleton_iff : splitFirst separator 0 cs = [piece] ↔ cs = piece := by
  rw [splitFirst, List.cons.injEq, and_iff_left rfl]

/-- A text that is cut is cut in front of the rest at the first occurrence. -/
theorem splitFirst_succ_eq_cons_iff {count : ℕ} :
    splitFirst separator (count + 1) cs = piece :: next :: pieces ↔
      ∃ rest, cs = piece ++ separator :: rest ∧ separator ∉ piece ∧
        splitFirst separator count rest = next :: pieces := by
  constructor
  · intro h
    rw [splitFirst] at h
    split at h
    · cases h
    · next before after hcut =>
      obtain ⟨hcs, hbefore⟩ := cutAt?_eq_some_iff.mp hcut
      obtain ⟨rfl, hrest⟩ := List.cons.inj h
      exact ⟨after, hcs, hbefore, hrest⟩
  · rintro ⟨rest, hcs, hpiece, hrest⟩
    have hcut : cutAt? separator cs = some (piece, rest) := cutAt?_eq_some_iff.mpr ⟨hcs, hpiece⟩
    rw [splitFirst, hcut]
    exact congrArg (piece :: ·) hrest

end EndpointRules.Text
