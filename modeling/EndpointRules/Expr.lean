import EndpointRules.Json.Basic
import EndpointRules.Template.Basic

/-! Expressions of the rule language, and the names in references and calls. -/

namespace EndpointRules

/-- What a document gives as a name. Only a text can be bound or registered; any other datum is a
name of nothing. -/
inductive Name where
  | text (name : Text)
  | other (given : Json)
  deriving Repr

namespace Name

def ofJson : Json → Name
  | .str s => .text s
  | given => .other given

def toJson : Name → Json
  | .text name => .str name
  | .other given => given

def plainText (name : Name) : Text := name.toJson.plainText

/-- Why a name cannot even be looked up, or why it cannot be said that nothing has it. -/
def breakdown? : Name → Option Breakdown
  | .other (.arr items) => some (.unsearchable (Json.arr items).kindWord)
  | .other (.obj fields) => some (.unsearchable (Json.obj fields).kindWord)
  | .other (.int n) => if isLong n then some .longNumber else none
  | _ => none

end Name

/-- An expression. -/
inductive Expr where
  | bool (b : Bool)
  | int (n : Int)
  | template (t : Template)
  | list (items : List Expr)
  | record (fields : List (Text × Expr))
  | ref (name : Name)
  | call (function : Name) (args : List Expr)
  deriving Repr, Inhabited

namespace Expr

mutual
/-- The names that an expression refers to, in the order in which they are met and with
repetitions. -/
def references : Expr → List Text
  | .bool _ | .int _ => []
  | .template t => t.references
  | .list items => itemReferences items
  | .record fields => fieldReferences fields
  | .ref (.text name) => [name]
  | .ref (.other _) => []
  | .call _ args => itemReferences args

def itemReferences : List Expr → List Text
  | [] => []
  | e :: rest => e.references ++ itemReferences rest

def fieldReferences : List (Text × Expr) → List Text
  | [] => []
  | (_, e) :: rest => e.references ++ fieldReferences rest
end

/-- Induction with a hypothesis for each direct part of an expression. -/
@[elab_as_elim]
theorem ind {motive : Expr → Prop} (bool : ∀ b, motive (.bool b)) (int : ∀ n, motive (.int n))
    (template : ∀ t, motive (.template t))
    (list : ∀ items, (∀ e ∈ items, motive e) → motive (.list items))
    (record : ∀ fields, (∀ field ∈ fields, motive field.2) → motive (.record fields))
    (ref : ∀ name, motive (.ref name))
    (call : ∀ f args, (∀ e ∈ args, motive e) → motive (.call f args)) (e : Expr) : motive e :=
  @Expr.rec motive (fun items => ∀ e ∈ items, motive e)
    (fun fields => ∀ field ∈ fields, motive field.2) (fun field => motive field.2)
    bool int template list record ref call
    (fun _ h => absurd h List.not_mem_nil)
    (fun _ _ first rest => List.forall_mem_cons.mpr ⟨first, rest⟩)
    (fun _ h => absurd h List.not_mem_nil)
    (fun _ _ first rest => List.forall_mem_cons.mpr ⟨first, rest⟩)
    (fun _ _ h => h) e

end Expr

end EndpointRules
