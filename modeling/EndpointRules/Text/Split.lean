import EndpointRules.Text.Basic

/-! Texts cut at separators, and line ends of all kinds. -/

namespace EndpointRules.Text

/-- Cuts a text in two at the first occurrence of a character, if there is one. -/
def cutAt? (separator : CodePoint) : List CodePoint → Option (List CodePoint × List CodePoint)
  | [] => none
  | c :: rest =>
    if c = separator then some ([], rest)
    else (cutAt? separator rest).map fun (before, after) => (c :: before, after)

theorem cutAt?_eq_none_iff {separator : CodePoint} {cs : List CodePoint} :
    cutAt? separator cs = none ↔ separator ∉ cs := by
  induction cs with
  | nil => simp [cutAt?]
  | cons c rest ih =>
    by_cases hc : c = separator
    · simp [cutAt?, hc]
    · simp [cutAt?, hc, Ne.symm hc, ih]

/-- The cut is at the first occurrence. -/
theorem cutAt?_eq_some_iff {separator : CodePoint} {cs before after : List CodePoint} :
    cutAt? separator cs = some (before, after) ↔
      cs = before ++ separator :: after ∧ separator ∉ before := by
  induction cs generalizing before after with
  | nil => simp [cutAt?]
  | cons c rest ih =>
    by_cases hc : c = separator
    · subst hc
      cases before with
      | nil => simp [cutAt?]
      | cons d before =>
        simp only [cutAt?, if_true, Option.some.injEq, Prod.mk.injEq, List.cons_append,
          List.cons.injEq, List.mem_cons, not_or]
        constructor
        · exact fun h => absurd h.1 (by simp)
        · exact fun h => absurd h.1.1 h.2.1
    · cases before with
      | nil => simp [cutAt?, hc]
      | cons d before =>
        simp only [cutAt?, if_neg hc, Option.map_eq_some_iff, Prod.exists, ih, Prod.mk.injEq,
          List.cons_append, List.cons.injEq, List.mem_cons, not_or]
        constructor
        · rintro ⟨piece, later, ⟨rfl, hmem⟩, ⟨rfl, rfl⟩, rfl⟩
          exact ⟨⟨rfl, rfl⟩, Ne.symm hc, hmem⟩
        · rintro ⟨⟨rfl, rfl⟩, -, hmem⟩
          exact ⟨before, after, ⟨rfl, hmem⟩, ⟨rfl, rfl⟩, rfl⟩

/-- The text after the last occurrence of a character, or all of it if there is none. -/
def afterLast (separator : CodePoint) : List CodePoint → List CodePoint
  | [] => []
  | c :: rest =>
    if rest.contains separator then afterLast separator rest
    else if c = separator then rest else c :: rest

/-- The pieces between the first `count` occurrences of a character; the last piece holds the
rest of the text. -/
def splitFirst (separator : CodePoint) : (count : Nat) → List CodePoint → List (List CodePoint)
  | 0, cs => [cs]
  | count + 1, cs =>
    match cutAt? separator cs with
    | none => [cs]
    | some (before, after) => before :: splitFirst separator count after

/-- Line ends of all kinds become line feeds. -/
def unifyLineEnds : List CodePoint → List CodePoint
  | .char '\r' :: .char '\n' :: rest => .char '\n' :: unifyLineEnds rest
  | .char '\r' :: rest => .char '\n' :: unifyLineEnds rest
  | c :: rest => c :: unifyLineEnds rest
  | [] => []

end EndpointRules.Text
