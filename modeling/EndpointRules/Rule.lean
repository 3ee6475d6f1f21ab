import EndpointRules.Expr

/-! Rules: conditions that guard an endpoint, an error or further rules. -/

namespace EndpointRules

/-- A guard, whose value may be given a name. -/
structure Condition where
  expr : Expr
  assign : Option Text
  deriving Repr

/-- What an endpoint is made of. -/
structure EndpointBody where
  url : Expr
  properties : List (Text × Expr)
  headers : List (Text × List Expr)
  deriving Repr

/-- What rules of all kinds have. The path leads from the root of the tree to the rule. -/
structure RuleHead where
  path : Text
  conditions : List Condition
  documentation : Option Text
  deriving Repr

/-- A rule ends in an endpoint or an error, or tries further rules in order. -/
inductive Rule where
  | endpoint (head : RuleHead) (body : EndpointBody)
  | error (head : RuleHead) (message : Expr)
  | tree (head : RuleHead) (rules : List Rule)
  deriving Repr

/-- The kinds of rules. -/
inductive RuleKind where
  | endpoint
  | error
  | tree
  deriving DecidableEq, Repr

def RuleKind.text : RuleKind → Text
  | .endpoint => "endpoint"
  | .error => "error"
  | .tree => "tree"

namespace Rule

def head : Rule → RuleHead
  | .endpoint head _ | .error head _ | .tree head _ => head

def kind : Rule → RuleKind
  | .endpoint _ _ => .endpoint
  | .error _ _ => .error
  | .tree _ _ => .tree

def path (r : Rule) : Text := r.head.path

def conditions (r : Rule) : List Condition := r.head.conditions

/-- The names that the conditions of a rule assign, in order. -/
def assigns (r : Rule) : List Text := r.conditions.filterMap Condition.assign

/-- The path of the root of a rule tree. -/
def rootPath : Text := "$"

/-- The root of a rule tree tries its rules without conditions. -/
def root (rules : List Rule) : Rule := .tree ⟨rootPath, [], none⟩ rules

/-- Induction with a hypothesis for each rule right below a tree rule. -/
@[elab_as_elim]
theorem ind {motive : Rule → Prop} (endpoint : ∀ head body, motive (.endpoint head body))
    (error : ∀ head message, motive (.error head message))
    (tree : ∀ head rules, (∀ rule ∈ rules, motive rule) → motive (.tree head rules))
    (rule : Rule) : motive rule :=
  @Rule.rec motive (fun rules => ∀ rule ∈ rules, motive rule) endpoint error tree
    (fun _ h => absurd h List.not_mem_nil)
    (fun _ _ first rest => List.forall_mem_cons.mpr ⟨first, rest⟩) rule

end Rule
end EndpointRules
