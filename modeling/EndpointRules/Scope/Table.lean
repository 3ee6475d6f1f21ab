import EndpointRules.Scope.Check

/-! The scope table: what each tree rule defines, and what it needs from outside. -/

namespace EndpointRules

/-- The names that a tree rule assigns, in order, and the names that it and the rules below it use
but do not bind, sorted. -/
structure Scope where
  defines : List Text
  uses : List Text
  deriving DecidableEq, Repr

namespace Rule

mutual
/-- The names that a rule and the rules below it refer to without binding them, with
repetitions. -/
def freeNames : Rule → List Text
  | .endpoint head body =>
    (Expr.itemReferences (head.conditions.map Condition.expr) ++
      Expr.itemReferences body.exprs).filter
      fun name => !(head.conditions.filterMap Condition.assign).contains name
  | .error head message =>
    (Expr.itemReferences (head.conditions.map Condition.expr) ++ message.references).filter
      fun name => !(head.conditions.filterMap Condition.assign).contains name
  | .tree head rules =>
    (Expr.itemReferences (head.conditions.map Condition.expr) ++ freeNamesOfAll rules).filter
      fun name => !(head.conditions.filterMap Condition.assign).contains name

def freeNamesOfAll : List Rule → List Text
  | [] => []
  | rule :: rest => rule.freeNames ++ freeNamesOfAll rest
end

def scope (rule : Rule) : Scope := ⟨rule.assigns, orderedNames rule.freeNames⟩

mutual
/-- The scopes of the tree rules from a rule downwards, by their paths. -/
def scopes : Rule → List (Text × Scope)
  | .endpoint _ _ | .error _ _ => []
  | .tree head rules => (head.path, (Rule.tree head rules).scope) :: scopesOfAll rules

def scopesOfAll : List Rule → List (Text × Scope)
  | [] => []
  | rule :: rest => rule.scopes ++ scopesOfAll rest
end

end Rule
end EndpointRules
