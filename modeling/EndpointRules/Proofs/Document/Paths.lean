import EndpointRules.Proofs.Document.Loaded
import EndpointRules.Proofs.Text.Classes
import Mathlib.Data.List.Induction

/-! The paths of rules. The path of a rule spells out its position in the tree, so that no two rules
have the same path, and the scope table gives each tree rule its own scope. -/

namespace EndpointRules
open Document

/-- The path of the rule at a position, which is given by indices from the root downwards. -/
def rulePath (position : List Nat) : Text := position.foldl childPath Rule.rootPath

private theorem rulePath_concat (position : List Nat) (index : Nat) :
    rulePath (position ++ [index]) = childPath (rulePath position) index := by
  rw [rulePath, List.foldl_append]
  rfl

/-- The index that a piece of a path holds in brackets. -/
def indexOf? (piece : List CodePoint) : Option Nat :=
  (Text.cutAt? '[' piece).map fun (_, rest) => Text.decimalValue (rest.takeWhile CodePoint.isDigit)

/-- The position that a path spells out: the indices of its pieces. -/
def positionOf (path : Text) : List Nat := (path.toList.splitOn (.char '.')).filterMap indexOf?

/-- The piece that a child adds to the path of its parent. -/
private def childPiece (index : Nat) : List CodePoint :=
  Text.toList "rules" ++ .char '[' :: (Text.digits index ++ [.char ']'])

private theorem indexOf?_childPiece (index : Nat) : indexOf? (childPiece index) = some index := by
  have hcut : Text.cutAt? '[' (childPiece index) =
      some (Text.toList "rules", Text.digits index ++ [.char ']']) :=
    Text.cutAt?_eq_some_iff.mpr ⟨rfl, by decide⟩
  have htake : (Text.digits index ++ [CodePoint.char ']']).takeWhile CodePoint.isDigit =
      Text.digits index := by
    rw [List.takeWhile_append_of_pos fun c hc => Text.isDigit_of_mem_digits hc]
    exact List.append_nil _
  simp only [indexOf?, hcut, Option.map_some, htake, Text.decimalValue_digits]

private theorem splitOn_childPiece (index : Nat) :
    (childPiece index).splitOn (.char '.') = [childPiece index] := by
  apply List.splitOn_eq_singleton
  intro hc
  rcases List.mem_append.mp hc with hc | hc
  · revert hc
    decide
  · rcases List.mem_cons.mp hc with hc | hc
    · cases hc
    · rcases List.mem_append.mp hc with hc | hc
      · cases Text.isDigit_of_mem_digits hc
      · cases List.mem_singleton.mp hc

private theorem toList_childPath (parent : Text) (index : Nat) :
    (childPath parent index).toList =
      if parent = Rule.rootPath then childPiece index
      else parent.toList ++ .char '.' :: childPiece index := by
  rw [childPath, Text.toList_indexed, childPiece]
  split
  · rfl
  · rw [Text.toList_append, List.append_assoc]
    rfl

/-- A child adds its index to the position that the path of its parent spells out. -/
private theorem positionOf_childPath (parent : Text) (index : Nat) :
    positionOf (childPath parent index) = positionOf parent ++ [index] := by
  have hpiece : ((childPiece index).splitOn (.char '.')).filterMap indexOf? = [index] := by
    rw [splitOn_childPiece]
    simp [indexOf?_childPiece]
  rw [positionOf, positionOf, toList_childPath]
  split
  · next hroot =>
    rw [hpiece, hroot]
    rfl
  · rw [List.splitOn_append_cons_self, List.filterMap_append, hpiece]

/-- The path of the rule at a position spells out the position. -/
theorem positionOf_rulePath (position : List Nat) : positionOf (rulePath position) = position := by
  induction position using List.reverseRecOn with
  | nil => rfl
  | append_singleton rest index ih => rw [rulePath_concat, positionOf_childPath, ih]

/-- Rules at different positions have different paths. -/
theorem rulePath_inj {position position' : List Nat} (h : rulePath position = rulePath position') :
    position = position' := by
  rw [← positionOf_rulePath position, h, positionOf_rulePath]

namespace Rule

/-- A rule is another one or stands somewhere below it. -/
inductive Within (inner : Rule) : Rule → Prop
  | here : Within inner inner
  | child {head : RuleHead} {rules : List Rule} {rule : Rule} :
      rule ∈ rules → Within inner rule → Within inner (.tree head rules)

mutual
/-- Paths from a position downwards spell out the positions of the rules. -/
def Placed (position : List Nat) : Rule → Prop
  | .endpoint head _ | .error head _ => head.path = rulePath position
  | .tree head rules => head.path = rulePath position ∧ AllPlaced position 0 rules

def AllPlaced (position : List Nat) (index : Nat) : List Rule → Prop
  | [] => True
  | rule :: rest => rule.Placed (position ++ [index]) ∧ AllPlaced position (index + 1) rest
end

private theorem allPlaced_append {position : List Nat} {index : Nat} {rules more : List Rule} :
    AllPlaced position index (rules ++ more) ↔
      AllPlaced position index rules ∧ AllPlaced position (index + rules.length) more := by
  induction rules generalizing index with
  | nil => simp [AllPlaced]
  | cons rule rest ih =>
    rw [List.cons_append, AllPlaced, AllPlaced, ih, and_assoc, List.length_cons, Nat.add_right_comm,
      Nat.add_assoc]

private theorem AllPlaced.placed {position : List Nat} {index i : Nat} {rules : List Rule}
    {rule : Rule}
    (h : AllPlaced position index rules) (hrule : rules[i]? = some rule) :
    rule.Placed (position ++ [index + i]) := by
  obtain ⟨hi, rfl⟩ := List.getElem?_eq_some_iff.mp hrule
  rw [← List.take_append_drop i rules, allPlaced_append, List.length_take,
    Nat.min_eq_left (Nat.le_of_lt hi), List.drop_eq_getElem_cons hi] at h
  exact h.2.1

/-- The rule at a position below a rule: each index picks one of the rules right below. -/
def at? : Rule → List Nat → Option Rule
  | rule, [] => some rule
  | .tree _ rules, index :: position => rules[index]?.bind fun child => child.at? position
  | .endpoint _ _, _ :: _ | .error _ _, _ :: _ => none

theorem at?_append (rule : Rule) (position further : List Nat) :
    rule.at? (position ++ further) = (rule.at? position).bind fun inner => inner.at? further := by
  induction position generalizing rule with
  | nil =>
    rw [List.nil_append, at?]
    rfl
  | cons index position ih =>
    cases rule with
    | endpoint head body => rfl
    | error head message => rfl
    | tree head rules =>
      rw [List.cons_append, at?, at?]
      cases rules[index]? with
      | none => rfl
      | some child => exact ih child

theorem within_iff_at? {inner rule : Rule} :
    inner.Within rule ↔ ∃ position, rule.at? position = some inner := by
  constructor
  · intro h
    induction h with
    | here => exact ⟨[], by rw [at?]⟩
    | child hmem _ ih =>
      obtain ⟨position, hposition⟩ := ih
      obtain ⟨index, hindex⟩ := List.mem_iff_getElem?.mp hmem
      exact ⟨index :: position, by rw [at?, hindex, Option.bind_some, hposition]⟩
  · rintro ⟨position, h⟩
    induction position generalizing rule with
    | nil =>
      rw [at?] at h
      cases h
      exact .here
    | cons index position ih =>
      cases rule with
      | endpoint head body => cases h
      | error head message => cases h
      | tree head rules =>
        rw [at?] at h
        obtain ⟨child, hchild, h⟩ := Option.bind_eq_some_iff.mp h
        exact .child (List.mem_of_getElem? hchild) (ih h)

/-- The path of a placed rule, and of every rule below it, spells out its position. -/
theorem Placed.path_at? {position further : List Nat} {rule inner : Rule}
    (hp : rule.Placed position) (h : rule.at? further = some inner) :
    inner.path = rulePath (position ++ further) := by
  induction further generalizing position rule with
  | nil =>
    rw [at?] at h
    cases h
    rw [List.append_nil]
    cases inner with
    | endpoint head body => exact hp
    | error head message => exact hp
    | tree head rules => exact hp.1
  | cons index further ih =>
    cases rule with
    | endpoint head body => cases h
    | error head message => cases h
    | tree head rules =>
      rw [at?] at h
      obtain ⟨child, hchild, h⟩ := Option.bind_eq_some_iff.mp h
      have hplaced := hp.2.placed hchild
      rw [Nat.zero_add] at hplaced
      rw [ih hplaced h, List.append_assoc, List.singleton_append]

/-- What stands below a placed rule is placed further down. -/
private theorem Within.placed {position : List Nat} {inner rule : Rule} (h : inner.Within rule)
    (hp : rule.Placed position) : ∃ further, inner.Placed (position ++ further) := by
  induction h generalizing position with
  | here => exact ⟨[], by rwa [List.append_nil]⟩
  | @child head rules rule hmem _ ih =>
    obtain ⟨before, after, rfl⟩ := List.append_of_mem hmem
    obtain ⟨-, hrule, -⟩ := allPlaced_append.mp hp.2
    obtain ⟨further, hinner⟩ := ih hrule
    rw [List.append_assoc] at hinner
    exact ⟨_, hinner⟩

end Rule

namespace Document

mutual
/-- A rule that is built for a position is placed there. -/
private theorem placed_buildRule : (position : List Nat) → (raw : Json) → (rule : Rule) →
    buildRule (rulePath position) raw = .ok rule → rule.Placed position
  | position, .obj fields, rule, h => by
    obtain ⟨head, body, rfl, hpath⟩ | ⟨head, message, rfl, hpath⟩ |
      ⟨head, rules, kind, rfl, hpath, -, -, -, hrules⟩ := buildRule_obj h
    · exact hpath
    · exact hpath
    · exact ⟨hpath, placed_buildChildren position fields rules hrules⟩
  | _, .null, _, h | _, .bool _, _, h | _, .int _, _, h | _, .float _, _, h | _, .str _, _, h
  | _, .arr _, _, h => by simp [buildRule] at h

private theorem placed_buildChildren : (position : List Nat) → (fields : List (Text × Json)) →
    (rules : List Rule) → buildChildren (rulePath position) fields = .ok rules →
    Rule.AllPlaced position 0 rules
  | _, [], _, h => by simp [buildChildren] at h
  | position, (key, raw) :: rest, rules, h => by
    unfold buildChildren at h
    split at h
    · exact placed_buildRuleArray position raw rules h
    · exact placed_buildChildren position rest rules h

private theorem placed_buildRuleArray : (position : List Nat) → (raw : Json) → (rules : List Rule) →
    buildRuleArray (rulePath position) raw = .ok rules → Rule.AllPlaced position 0 rules
  | position, .arr raws, rules, h => placed_buildRules position 0 raws rules h
  | _, .null, _, h | _, .bool _, _, h | _, .int _, _, h | _, .float _, _, h | _, .str _, _, h
  | _, .obj _, _, h => by simp [buildRuleArray] at h

private theorem placed_buildRules : (position : List Nat) → (index : Nat) → (raws : List Json) →
    (rules : List Rule) → buildRules (rulePath position) index raws = .ok rules →
    Rule.AllPlaced position index rules
  | _, _, [], _, h => by
    cases h
    trivial
  | position, index, raw :: rest, rules, h => by
    simp only [buildRules, Outcome.bind_ok_iff] at h
    obtain ⟨first, hfirst, others, hothers, h⟩ := h
    cases h
    rw [← rulePath_concat] at hfirst
    exact ⟨placed_buildRule _ raw first hfirst,
      placed_buildRules position (index + 1) rest _ hothers⟩
end

end Document

theorem RuleSet.Loaded.placed {r : Registry} {document : Json} {rs : RuleSet}
    (h : RuleSet.Loaded r document rs) : rs.root.Placed [] := by
  obtain ⟨_, _, rules, -, -, -, -, hrules⟩ := RuleSet.build_ok h.built
  exact ⟨rfl, placed_buildRules [] 0 rules rs.rules hrules⟩

/-! The scope table. -/

namespace Rule

private theorem mem_scopesOfAll {rules : List Rule} {entry : Text × Scope} :
    entry ∈ scopesOfAll rules ↔ ∃ rule ∈ rules, entry ∈ rule.scopes := by
  induction rules with
  | nil => simp [scopesOfAll]
  | cons rule rest ih => simp [scopesOfAll, ih]

private theorem scopesOfAll_append (rules more : List Rule) :
    scopesOfAll (rules ++ more) = scopesOfAll rules ++ scopesOfAll more := by
  induction rules with
  | nil => rfl
  | cons rule rest ih => rw [List.cons_append, scopesOfAll, scopesOfAll, ih, List.append_assoc]

/-- Every entry of the table belongs to a tree rule. -/
theorem within_of_mem_scopes {rule : Rule} {entry : Text × Scope} (h : entry ∈ rule.scopes) :
    ∃ head rules, (tree head rules).Within rule ∧ entry.1 = head.path := by
  induction rule using Rule.ind with
  | endpoint head body => simp [scopes] at h
  | error head message => simp [scopes] at h
  | tree head rules ih =>
    rw [scopes, List.mem_cons] at h
    obtain rfl | h := h
    · exact ⟨head, rules, .here, rfl⟩
    · obtain ⟨rule, hrule, hentry⟩ := mem_scopesOfAll.mp h
      obtain ⟨head', rules', hwithin, hpath⟩ := ih rule hrule hentry
      exact ⟨head', rules', .child hrule hwithin, hpath⟩

/-- The table of rules that are placed one after another has paths below their positions only. -/
private theorem AllPlaced.keys_scopes {position : List Nat} {index : Nat} {rules : List Rule}
    {key : Text}
    (h : AllPlaced position index rules) (hk : key ∈ Fields.keys (scopesOfAll rules)) :
    ∃ i further, index ≤ i ∧ i < index + rules.length ∧
      key = rulePath (position ++ i :: further) := by
  obtain ⟨entry, hentry, rfl⟩ := List.mem_map.mp hk
  obtain ⟨rule, hrule, hentry⟩ := mem_scopesOfAll.mp hentry
  obtain ⟨head, below, hwithin, hpath⟩ := within_of_mem_scopes hentry
  obtain ⟨before, after, rfl⟩ := List.append_of_mem hrule
  obtain ⟨-, hplaced, -⟩ := allPlaced_append.mp h
  obtain ⟨further, hinner⟩ := hwithin.placed hplaced
  refine ⟨index + before.length, further, Nat.le_add_right _ _, ?_, ?_⟩
  · rw [List.length_append, List.length_cons]
    omega
  · rw [hpath, hinner.1, List.append_assoc, List.singleton_append]

private theorem keys_scopesOfAll_cons (rule : Rule) (rest : List Rule) :
    Fields.keys (scopesOfAll (rule :: rest)) =
      Fields.keys rule.scopes ++ Fields.keys (scopesOfAll rest) := by
  rw [Fields.keys, scopesOfAll, List.map_append]
  rfl

/-- No two entries of the table have the same path. -/
theorem Placed.nodup_keys_scopes {position : List Nat} {rule : Rule} (h : rule.Placed position) :
    (Fields.keys rule.scopes).Nodup := by
  induction rule using Rule.ind generalizing position with
  | endpoint head body => exact List.nodup_nil
  | error head message => exact List.nodup_nil
  | tree head rules ih =>
    have hbelow (index : Nat) (placed : List Rule) (hsub : ∀ rule ∈ placed, rule ∈ rules)
        (hplaced : AllPlaced position index placed) :
        (Fields.keys (scopesOfAll placed)).Nodup := by
      induction placed generalizing index with
      | nil => exact List.nodup_nil
      | cons rule rest ihRest =>
        obtain ⟨hrule, hrest⟩ := List.forall_mem_cons.mp hsub
        have hsingle : AllPlaced position index [rule] := ⟨hplaced.1, trivial⟩
        have hkeys : Fields.keys (scopesOfAll [rule]) = Fields.keys rule.scopes := by
          rw [keys_scopesOfAll_cons]
          exact List.append_nil _
        rw [keys_scopesOfAll_cons, List.nodup_append]
        refine ⟨ih rule hrule hplaced.1, ihRest (index + 1) hrest hplaced.2, ?_⟩
        rintro key hfirst _ hlater rfl
        obtain ⟨i, further, -, hi, hkey⟩ := hsingle.keys_scopes (hkeys ▸ hfirst)
        obtain ⟨j, further', hj, -, hkey'⟩ := hplaced.2.keys_scopes hlater
        have hpositions := List.append_cancel_left (rulePath_inj (hkey.symm.trans hkey'))
        have hindex := (List.cons.inj hpositions).1
        rw [List.length_singleton] at hi
        omega
    have hkeys : Fields.keys (Rule.tree head rules).scopes =
        head.path :: Fields.keys (scopesOfAll rules) := rfl
    rw [hkeys, List.nodup_cons]
    refine ⟨fun hmem => ?_, hbelow 0 rules (fun _ hrule => hrule) h.2⟩
    obtain ⟨i, further, -, -, hkey⟩ := h.2.keys_scopes hmem
    have hlength := congrArg List.length (rulePath_inj (h.1.symm.trans hkey))
    simp at hlength

/-- The table has the scope of each tree rule at its path. -/
theorem Within.get?_scopes {position : List Nat} {head : RuleHead} {rules : List Rule} {rule : Rule}
    (hw : (tree head rules).Within rule) (h : rule.Placed position) :
    Fields.get? head.path rule.scopes = some (tree head rules).scope := by
  induction hw generalizing position with
  | here => rw [scopes, Fields.get?, if_pos rfl]
  | @child outer siblings rule hmem hw ih =>
    obtain ⟨before, after, rfl⟩ := List.append_of_mem hmem
    obtain ⟨hbefore, hrule, -⟩ := allPlaced_append.mp h.2
    obtain ⟨further, hinner⟩ := hw.placed hrule
    have hpath : head.path = rulePath (position ++ before.length :: further) := by
      rw [hinner.1, List.append_assoc, List.singleton_append, Nat.zero_add]
    -- Neither the parent nor an earlier sibling has an entry at the path of the rule.
    have hparent : outer.path ≠ head.path := by
      rw [h.1, hpath]
      intro heq
      have hlength := congrArg List.length (rulePath_inj heq)
      simp at hlength
    have hearlier : Fields.get? head.path (scopesOfAll before) = none := by
      rw [Fields.get?_eq_none_iff]
      intro hkey
      obtain ⟨i, further', -, hi, heq⟩ := hbefore.keys_scopes hkey
      have hpositions := List.append_cancel_left (rulePath_inj (hpath.symm.trans heq))
      have hindex := (List.cons.inj hpositions).1
      omega
    rw [scopes, Fields.get?, if_neg hparent, scopesOfAll_append, Fields.get?_append, hearlier,
      Option.none_or, scopesOfAll, Fields.get?_append, ih hrule, Option.some_or]

end Rule
end EndpointRules
