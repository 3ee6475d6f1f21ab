import EndpointRules.Proofs.Scope.Dependence
import EndpointRules.Proofs.Scope.Lexical

/-! What the scope table says. It is computed from the rules upwards, by collecting references and
taking assigned names away. Said of the places in the tree, a tree rule uses the names that are
referred to somewhere in it and bound outside. -/

namespace EndpointRules

/-- A rule or one below it refers to a name. The conditions are those in front of the reference,
from the conditions of the rule on. -/
inductive Rule.Mentions (t : Rule) : List Condition → Text → Prop
  | intro {inside before : List Condition} {rule : Rule} {e sub : Expr} {name : Text} :
      t.Below inside rule → rule.Has before e → sub.Within e → sub.RefersTo (.text name) →
      Mentions t (inside ++ before) name

variable {r : Registry} {scope : TyEnv} {name : Text}

/-! References. -/

private theorem Expr.mem_references_iff {e : Expr} :
    name ∈ e.references ↔ ∃ sub : Expr, sub.Within e ∧ sub.RefersTo (.text name) := by
  constructor
  · intro h
    induction e using Expr.ind with
    | bool b => cases h
    | int n => cases h
    | template t => exact ⟨_, .here, .placeholder h⟩
    | list items ih =>
      obtain ⟨e, he, hname⟩ := mem_itemReferences.mp h
      obtain ⟨sub, hsub, hrefers⟩ := ih e he hname
      exact ⟨sub, .item he hsub, hrefers⟩
    | record fields ih =>
      obtain ⟨field, hfield, hname⟩ := mem_fieldReferences.mp h
      obtain ⟨sub, hsub, hrefers⟩ := ih field hfield hname
      exact ⟨sub, .field hfield hsub, hrefers⟩
    | ref given =>
      cases given with
      | text s =>
        obtain rfl := List.mem_singleton.mp h
        exact ⟨_, .here, .reference _⟩
      | other given => cases h
    | call f args ih =>
      obtain ⟨e, he, hname⟩ := mem_itemReferences.mp h
      obtain ⟨sub, hsub, hrefers⟩ := ih e he hname
      exact ⟨sub, .argument he hsub, hrefers⟩
  · rintro ⟨sub, hsub, hrefers⟩
    induction hsub with
    | here =>
      cases hrefers with
      | reference => exact List.mem_singleton_self _
      | placeholder hmem => exact hmem
    | item hmem _ ih => exact mem_itemReferences.mpr ⟨_, hmem, ih⟩
    | field hmem _ ih => exact mem_fieldReferences.mpr ⟨_, hmem, ih⟩
    | argument hmem _ ih => exact mem_itemReferences.mpr ⟨_, hmem, ih⟩

/-- Among conditions that fit, the names that are referred to but not assigned are those that some
condition refers to and none in front of it assigns. -/
private theorem ConditionsFit.mem_references_iff {conditions : List Condition}
    (h : ConditionsFit r scope conditions) :
    name ∈ Expr.itemReferences (conditions.map Condition.expr) ∧ name ∉ assigned conditions ↔
      ∃ before c rest, conditions = before ++ c :: rest ∧ name ∈ c.expr.references ∧
        name ∉ assigned before := by
  constructor
  · rintro ⟨hname, hnot⟩
    obtain ⟨e, he, hexpr⟩ := Expr.mem_itemReferences.mp hname
    obtain ⟨c, hc, rfl⟩ := List.mem_map.mp he
    obtain ⟨before, rest, rfl⟩ := List.append_of_mem hc
    exact ⟨before, c, rest, rfl, hexpr, fun hmem => hnot (mem_assigned_append.mpr (.inl hmem))⟩
  · rintro ⟨before, c, rest, rfl, hname, hnot⟩
    constructor
    · refine Expr.mem_itemReferences.mpr ⟨c.expr, List.mem_map_of_mem ?_, hname⟩
      exact List.mem_append_right _ List.mem_cons_self
    · -- The name is in scope at the condition, so no later condition can assign it.
      have hlater : ConditionsFit r (scope.after r before) (c :: rest) :=
        (conditionsFit_append.mp h).2
      have hfree := hlater.not_mem_assigns (hlater.1.1.references_in_scope hname)
      exact fun hmem => (mem_assigned_append.mp hmem).elim hnot hfree

/-- Conditions that fit assign no name twice. -/
private theorem ConditionsFit.nodup_assigned {conditions : List Condition}
    (h : ConditionsFit r scope conditions) : (assigned conditions).Nodup := by
  induction conditions generalizing scope with
  | nil => exact List.nodup_nil
  | cons c rest ih =>
    cases hassign : c.assign with
    | none =>
      rw [assigned, List.filterMap_cons_none hassign]
      exact ih h.2
    | some name =>
      rw [assigned, List.filterMap_cons_some hassign, List.nodup_cons]
      refine ⟨h.2.not_mem_assigns ?_, ih h.2⟩
      exact (TyEnv.isSome_find?_pass c).mpr (.inr hassign)

/-! Places of references. -/

namespace Rule
variable {t rule : Rule} {above inside behind : List Condition} {head : RuleHead}
  {rules : List Rule}

private theorem Below.trans (ht : rule.Below above t) {inner : Rule}
    (hinner : t.Below inside inner) :
    rule.Below (above ++ inside) inner := by
  induction hinner with
  | here => rwa [List.append_nil]
  | child _ hmem ih =>
    rw [← List.append_assoc]
    exact .child ih hmem

/-- What stands below a rule is the rule itself or stands below one of its children. -/
private theorem below_iff : t.Below above rule ↔ (above = [] ∧ rule = t) ∨
    ∃ head rules child inside, t = .tree head rules ∧ child ∈ rules ∧ child.Below inside rule ∧
      above = head.conditions ++ inside := by
  constructor
  · intro h
    induction h with
    | here => exact .inl ⟨rfl, rfl⟩
    | @child above head rules rule hparent hmem ih =>
      rcases ih with ⟨rfl, rfl⟩ | ⟨outer, siblings, child, inside, rfl, hchild, hbelow, rfl⟩
      · exact .inr ⟨head, rules, rule, [], rfl, hmem, .here, (List.append_nil _).symm⟩
      · exact .inr ⟨outer, siblings, child, _, rfl, hchild, .child hbelow hmem,
          List.append_assoc _ _ _⟩
  · rintro (⟨rfl, rfl⟩ | ⟨head, rules, child, inside, rfl, hchild, hbelow, rfl⟩)
    · exact .here
    · exact hbelow.under hchild

private theorem within_iff_below : rule.Within t ↔ ∃ above, t.Below above rule := by
  constructor
  · intro h
    induction h with
    | here => exact ⟨[], .here⟩
    | child hmem _ ih =>
      obtain ⟨inside, hbelow⟩ := ih
      exact ⟨_, hbelow.under hmem⟩
  · rintro ⟨above, h⟩
    induction t using Rule.ind generalizing above with
    | endpoint head body =>
      rcases below_iff.mp h with ⟨-, rfl⟩ | ⟨_, _, _, _, ht, _⟩
      · exact .here
      · cases ht
    | error head message =>
      rcases below_iff.mp h with ⟨-, rfl⟩ | ⟨_, _, _, _, ht, _⟩
      · exact .here
      · cases ht
    | tree head rules ih =>
      rcases below_iff.mp h with ⟨-, rfl⟩ | ⟨_, _, child, inside, ht, hchild, hbelow, -⟩
      · exact .here
      · cases ht
        exact .child hchild (ih child hchild inside hbelow)

/-- A rule mentions the names in its own expressions and, behind its conditions, what its children
mention. -/
private theorem mentions_iff : t.Mentions behind name ↔
    (∃ e, t.Has behind e ∧ name ∈ e.references) ∨
      ∃ head rules child inside, t = .tree head rules ∧ child ∈ rules ∧
        child.Mentions inside name ∧ behind = head.conditions ++ inside := by
  constructor
  · rintro ⟨hbelow, he, hsub, hrefers⟩
    rcases below_iff.mp hbelow with ⟨rfl, rfl⟩ | ⟨head, rules, child, inside, rfl, hchild, hb, rfl⟩
    · exact .inl ⟨_, he, Expr.mem_references_iff.mpr ⟨_, hsub, hrefers⟩⟩
    · exact .inr ⟨head, rules, child, _, rfl, hchild, .intro hb he hsub hrefers,
        List.append_assoc _ _ _⟩
  · rintro (⟨e, he, hname⟩ | ⟨head, rules, child, inside, rfl, hchild, hmentions, rfl⟩)
    · obtain ⟨sub, hsub, hrefers⟩ := Expr.mem_references_iff.mp hname
      exact .intro .here he hsub hrefers
    · obtain ⟨hbelow, he, hsub, hrefers⟩ := hmentions
      rw [← List.append_assoc]
      exact .intro (hbelow.under hchild) he hsub hrefers

/-- A free name comes from a condition, when none in front of it assigns the name, or from what the
conditions guard, when none of them does. -/
private theorem mem_free_iff {conditions : List Condition} {references : List Text}
    (h : ConditionsFit r scope conditions) :
    (name ∈ (Expr.itemReferences (conditions.map Condition.expr) ++ references).filter fun name =>
        !(conditions.filterMap Condition.assign).contains name) ↔
      (∃ before c rest, conditions = before ++ c :: rest ∧ name ∈ c.expr.references ∧
        name ∉ assigned before) ∨ name ∈ references ∧ name ∉ assigned conditions := by
  rw [mem_free, List.mem_append, or_and_right, ← h.mem_references_iff]
  rfl

/-- In a rule that fits, the free names are those that it mentions without binding them. -/
private theorem Fits.mem_freeNames_iff (h : t.Fits r scope) :
    name ∈ t.freeNames ↔ ∃ behind, t.Mentions behind name ∧ name ∉ assigned behind := by
  induction t using Rule.ind generalizing scope with
  | endpoint head body =>
    rw [freeNames, mem_free_iff h.1]
    constructor
    · rintro (⟨before, c, rest, hsplit, hname, hnot⟩ | ⟨hname, hnot⟩)
      · exact ⟨before, mentions_iff.mpr (.inl ⟨_, .condition hsplit, hname⟩), hnot⟩
      · obtain ⟨e, he, hname⟩ := Expr.mem_itemReferences.mp hname
        exact ⟨_, mentions_iff.mpr (.inl ⟨e, .terminal he, hname⟩), hnot⟩
    · rintro ⟨behind, hmentions, hnot⟩
      rcases mentions_iff.mp hmentions with ⟨e, he, hname⟩ | ⟨_, _, _, _, ht, _⟩
      · cases he with
        | condition hsplit => exact .inl ⟨behind, _, _, hsplit, hname, hnot⟩
        | terminal he => exact .inr ⟨Expr.mem_itemReferences.mpr ⟨e, he, hname⟩, hnot⟩
      · cases ht
  | error head message =>
    rw [freeNames, mem_free_iff h.1]
    constructor
    · rintro (⟨before, c, rest, hsplit, hname, hnot⟩ | ⟨hname, hnot⟩)
      · exact ⟨before, mentions_iff.mpr (.inl ⟨_, .condition hsplit, hname⟩), hnot⟩
      · exact ⟨_, mentions_iff.mpr (.inl ⟨message, .message, hname⟩), hnot⟩
    · rintro ⟨behind, hmentions, hnot⟩
      rcases mentions_iff.mp hmentions with ⟨e, he, hname⟩ | ⟨_, _, _, _, ht, _⟩
      · cases he with
        | condition hsplit => exact .inl ⟨behind, _, _, hsplit, hname, hnot⟩
        | message => exact .inr ⟨hname, hnot⟩
      · cases ht
  | tree head rules ih =>
    have hfits := (allFit_iff rules).mp h.2
    rw [freeNames, mem_free_iff h.1]
    constructor
    · rintro (⟨before, c, rest, hsplit, hname, hnot⟩ | ⟨hname, hnot⟩)
      · exact ⟨before, mentions_iff.mpr (.inl ⟨_, .condition hsplit, hname⟩), hnot⟩
      · obtain ⟨child, hchild, hname⟩ := mem_freeNamesOfAll.mp hname
        obtain ⟨inside, hmentions, hinside⟩ := (ih child hchild (hfits child hchild)).mp hname
        have hhere : (tree head rules).Mentions (head.conditions ++ inside) name :=
          mentions_iff.mpr (.inr ⟨head, rules, child, inside, rfl, hchild, hmentions, rfl⟩)
        exact ⟨_, hhere, fun hmem => (mem_assigned_append.mp hmem).elim hnot hinside⟩
    · rintro ⟨behind, hmentions, hnot⟩
      rcases mentions_iff.mp hmentions with
        ⟨e, he, hname⟩ | ⟨_, _, child, inside, ht, hchild, hinside, rfl⟩
      · cases he with
        | condition hsplit => exact .inl ⟨behind, _, _, hsplit, hname, hnot⟩
      · cases ht
        rw [mem_assigned_append, not_or] at hnot
        have hname := (ih child hchild (hfits child hchild)).mpr ⟨inside, hinside, hnot.2⟩
        exact .inr ⟨mem_freeNamesOfAll.mpr ⟨child, hchild, hname⟩, hnot.1⟩

end Rule

/-! The table. -/

namespace RuleSet

/-- A parameter or a condition binds a name. -/
def Binds (rs : RuleSet) (above : List Condition) (name : Text) : Prop :=
  name ∈ rs.parameters.map Parameter.name ∨ name ∈ assigned above

/-- What the scope of a tree rule behind conditions says. -/
structure Scoped (rs : RuleSet) (above : List Condition) (t : Rule) (scope : Scope) : Prop where
  defines_eq : scope.defines = assigned t.conditions
  nodup_defines : scope.defines.Nodup
  /-- The names that are used are those with a reference in the rule that is bound outside. -/
  mem_uses_iff : ∀ name, name ∈ scope.uses ↔
    (∃ behind, t.Mentions behind name) ∧ rs.Binds above name
  /-- A reference is bound outside the rule or inside, and not both. -/
  binds_iff : ∀ behind name, t.Mentions behind name → (rs.Binds above name ↔ name ∉ assigned behind)
  disjoint : ∀ name, name ∈ scope.uses → name ∉ scope.defines

/-- What the paths of rules and the scope table say of a rule set. -/
structure Tabled (rs : RuleSet) : Prop where
  path_inj : ∀ position position' rule rule', rs.root.at? position = some rule →
    rs.root.at? position' = some rule' → rule.path = rule'.path → position = position'
  /-- Following the indices in the path of a rule from the root leads to the rule. -/
  at?_positionOf : ∀ position rule, rs.root.at? position = some rule →
    rs.root.at? (positionOf rule.path) = some rule
  nodup_keys : (Fields.keys rs.scopes).Nodup
  mem_keys_iff : ∀ key, key ∈ Fields.keys rs.scopes ↔ key = Rule.rootPath ∨
    ∃ position head rules, rs.root.at? position = some (.tree head rules) ∧ key = head.path
  tree_scoped : ∀ above head rules, rs.root.Below above (.tree head rules) →
    ∃ scope, Fields.get? head.path rs.scopes = some scope ∧
      rs.Scoped above (.tree head rules) scope
  root_uses : ∃ scope, Fields.get? Rule.rootPath rs.scopes = some scope ∧
    ∀ name ∈ scope.uses, name ∈ rs.parameters.map Parameter.name

variable {rs : RuleSet} {document : Json} {above : List Condition} {t : Rule}

private theorem binds_iff_not_mem {behind : List Condition}
    (h : rs.root.Fits r (TyEnv.ofParameters rs.parameters)) (hb : rs.root.Below above t)
    (hmentions : t.Mentions behind name) :
    rs.Binds above name ↔ name ∉ assigned behind := by
  obtain ⟨hbelow, he, hsub, hrefers⟩ := hmentions
  obtain ⟨hconditions, hfits⟩ := h.place (hb.trans hbelow) he
  obtain ⟨s, hs, hknown⟩ := ((Expr.fits_iff hconditions).mp hfits).1 _ _ hsub hrefers
  cases hs
  rw [List.append_assoc] at hconditions hknown
  constructor
  · intro hbinds
    apply (conditionsFit_append.mp hconditions).2.not_mem_assigns
    rw [TyEnv.isSome_find?_after, TyEnv.isSome_find?_ofParameters]
    exact hbinds
  · intro hnot
    rcases hknown with hparameter | hassigned
    · exact .inl hparameter
    · exact .inr ((mem_assigned_append.mp hassigned).resolve_right hnot)

private theorem Loaded.scoped (h : Loaded r document rs) (hb : rs.root.Below above t) :
    rs.Scoped above t t.scope := by
  have hfits := h.root_fits
  have hmem : ∀ name, name ∈ t.scope.uses ↔
      (∃ behind, t.Mentions behind name) ∧ rs.Binds above name := by
    intro name
    rw [Rule.scope, mem_orderedNames, (hfits.below hb).mem_freeNames_iff]
    constructor
    · rintro ⟨behind, hmentions, hnot⟩
      exact ⟨⟨behind, hmentions⟩, (binds_iff_not_mem hfits hb hmentions).mpr hnot⟩
    · rintro ⟨⟨behind, hmentions⟩, hbinds⟩
      exact ⟨behind, hmentions, (binds_iff_not_mem hfits hb hmentions).mp hbinds⟩
  have hconditions := (hfits.below hb).conditions_fit
  refine ⟨rfl, hconditions.nodup_assigned, hmem,
    fun behind name hmentions => binds_iff_not_mem hfits hb hmentions, fun name huses => ?_⟩
  apply hconditions.not_mem_assigns
  rw [TyEnv.isSome_find?_after, TyEnv.isSome_find?_ofParameters]
  exact ((hmem name).mp huses).2

/-- The scope table of a loaded rule set says what is defined and used where, and its keys tell the
tree rules apart. -/
theorem load_tabled (h : load r document = .ok rs) : rs.Tabled := by
  have hloaded := loaded_of_load h
  have hplaced := hloaded.placed
  have hpath {position : List Nat} {rule : Rule} (hrule : rs.root.at? position = some rule) :
      rule.path = rulePath position := hplaced.path_at? hrule
  have hget {above : List Condition} {head : RuleHead} {rules : List Rule}
      (hb : rs.root.Below above (.tree head rules)) :
      Fields.get? head.path rs.scopes = some (Rule.tree head rules).scope :=
    (Rule.within_iff_below.mpr ⟨above, hb⟩).get?_scopes hplaced
  constructor
  case path_inj =>
    intro position position' rule rule' hrule hrule' hsame
    rw [hpath hrule, hpath hrule'] at hsame
    exact rulePath_inj hsame
  case at?_positionOf =>
    intro position rule hrule
    rw [hpath hrule, positionOf_rulePath, hrule]
  case nodup_keys => exact hplaced.nodup_keys_scopes
  case mem_keys_iff =>
    intro key
    constructor
    · intro hkey
      obtain ⟨entry, hentry, rfl⟩ := List.mem_map.mp hkey
      obtain ⟨head, rules, hwithin, hkey⟩ := Rule.within_of_mem_scopes hentry
      obtain ⟨position, hposition⟩ := Rule.within_iff_at?.mp hwithin
      exact .inr ⟨position, head, rules, hposition, hkey⟩
    · rintro (rfl | ⟨position, head, rules, hposition, rfl⟩)
      · exact List.mem_cons_self
      · have hwithin := Rule.within_iff_at?.mpr ⟨position, hposition⟩
        by_contra hno
        cases (hwithin.get?_scopes hplaced).symm.trans ((Fields.get?_eq_none_iff _ _).mpr hno)
  case tree_scoped => exact fun above head rules hb => ⟨_, hget hb, hloaded.scoped hb⟩
  case root_uses =>
    refine ⟨_, hget .here, fun name hname => ?_⟩
    have hbinds := (((hloaded.scoped .here).mem_uses_iff name).mp hname).2
    exact hbinds.resolve_right List.not_mem_nil

theorem load_tabled_sample :
    load .standard sampleDocument = .ok sampleRuleSet ∧ sampleRuleSet.Tabled :=
  ⟨sample_loads, load_tabled sample_loads⟩

end RuleSet
end EndpointRules
