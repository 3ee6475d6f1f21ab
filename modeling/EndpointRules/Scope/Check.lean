import EndpointRules.Document.Diagnostics
import EndpointRules.Function.Registry
import EndpointRules.Parameter
import EndpointRules.Rule
import EndpointRules.Ty

/-! Static checks of a rule tree: every name is in scope, no assignment shadows another name, and
every call fits the declaration of its function. -/

namespace EndpointRules

/-- The type of what a document gives as a name, if the name is in scope. -/
def TyEnv.findName? (env : TyEnv) : Name → Option Ty
  | .text s => env.find? s
  | .other _ => none

/-- A name put in order among others, unless it is one of them. -/
def insertName (name : Text) : List Text → List Text
  | [] => [name]
  | first :: rest =>
    if name = first then first :: rest
    else if name ≤ first then name :: first :: rest
    else first :: insertName name rest

/-- Names in order and without repetitions. -/
def orderedNames (names : List Text) : List Text := names.foldr insertName []

namespace Expr

mutual
/-- The static type of an expression. What has a defect may be anything. -/
def ty (r : Registry) (env : TyEnv) : Expr → Ty
  | .bool _ => .bool
  | .int _ => .int
  | .template _ => .string
  | .list items =>
    let types := itemTypes r env items
    if !types.isEmpty && types.all (· == .string) then .list .string else .list .any
  | .record _ => .record
  | .ref name => (env.findName? name).getD .any
  | .call f args =>
    match r.checkCall f (itemTypes r env args) with
    | .ok type => type
    | .error _ => .any

def itemTypes (r : Registry) (env : TyEnv) : List Expr → List Ty
  | [] => []
  | e :: rest => e.ty r env :: itemTypes r env rest
end

/-- A name that is referred to is in scope. -/
def checkName (env : TyEnv) (name : Name) : Report Unit :=
  Report.require (env.findName? name).isSome
    ("Reference to unbound name '" ++ name.plainText ++ "'") name.toJson

def checkNames (env : TyEnv) : List Text → Report Unit
  | [] => pure ()
  | name :: rest => do
    checkName env (.text name)
    checkNames env rest

mutual
def check (r : Registry) (env : TyEnv) : Expr → Report Unit
  | .bool _ | .int _ => pure ()
  | .template t => checkNames env (orderedNames t.references)
  | .list items => checkItems r env items
  | .record fields => checkFields r env fields
  | .ref name => checkName env name
  | .call f args => do
    checkArgs r env 0 args
    match r.checkCall f (itemTypes r env args) with
    | .ok _ => pure ()
    | .error e => Report.defect e.message f.toJson

def checkItems (r : Registry) (env : TyEnv) : List Expr → Report Unit
  | [] => pure ()
  | e :: rest => do
    e.check r env
    checkItems r env rest

def checkFields (r : Registry) (env : TyEnv) : List (Text × Expr) → Report Unit
  | [] => pure ()
  | (_, e) :: rest => do
    e.check r env
    checkFields r env rest

def checkArgs (r : Registry) (env : TyEnv) (index : Nat) : List Expr → Report Unit
  | [] => pure ()
  | e :: rest => do
    Report.within (Text.indexed "argv" index) (e.check r env)
    checkArgs r env (index + 1) rest
end

mutual
/-- What the first name brings about that cannot even be looked up, or not be shown. -/
def breakdown? : Expr → Option Breakdown
  | .bool _ | .int _ | .template _ => none
  | .list items => itemBreakdown? items
  | .record fields => fieldBreakdown? fields
  | .ref name => name.breakdown?
  | .call f args => (itemBreakdown? args).or f.breakdown?

def itemBreakdown? : List Expr → Option Breakdown
  | [] => none
  | e :: rest => e.breakdown?.or (itemBreakdown? rest)

def fieldBreakdown? : List (Text × Expr) → Option Breakdown
  | [] => none
  | (_, e) :: rest => e.breakdown?.or (fieldBreakdown? rest)
end

end Expr

namespace EndpointBody

def checkProperties (r : Registry) (env : TyEnv) : List (Text × Expr) → Report Unit
  | [] => pure ()
  | (name, e) :: rest => do
    Report.within ("properties." ++ name) (e.check r env)
    checkProperties r env rest

def checkValues (r : Registry) (env : TyEnv) (name : Text) (index : Nat) :
    List Expr → Report Unit
  | [] => pure ()
  | e :: rest => do
    Report.within (Text.indexed ("headers." ++ name) index) (e.check r env)
    checkValues r env name (index + 1) rest

def checkHeaders (r : Registry) (env : TyEnv) : List (Text × List Expr) → Report Unit
  | [] => pure ()
  | (name, values) :: rest => do
    checkValues r env name 0 values
    checkHeaders r env rest

def check (r : Registry) (env : TyEnv) (body : EndpointBody) : Report Unit := do
  Report.within "url" (body.url.check r env)
  checkProperties r env body.properties
  checkHeaders r env body.headers

/-- The expressions of an endpoint in the order in which they are checked. -/
def exprs (body : EndpointBody) : List Expr :=
  body.url :: body.properties.map (·.2) ++ body.headers.flatMap (·.2)

theorem mem_exprs {body : EndpointBody} {e : Expr} :
    e ∈ body.exprs ↔ e = body.url ∨ (∃ property ∈ body.properties, property.2 = e) ∨
      ∃ header ∈ body.headers, e ∈ header.2 := by
  simp only [exprs, List.mem_append, List.mem_cons, List.mem_map, List.mem_flatMap, or_assoc]

end EndpointBody

/-- Conditions in order; each one may use the names that earlier ones assign. The answer is the
scope of what follows. -/
def checkConditions (r : Registry) (env : TyEnv) (index : Nat) : List Condition → Report TyEnv
  | [] => pure env
  | c :: rest => do
    let extended ← Report.within (Text.indexed "conditions" index) (do
      c.expr.check r env
      match c.assign with
      | none => return env
      | some name =>
        if env.contains name then
          Report.defect ("Assignment to '" ++ name ++ "' shadows a name already in scope")
            (.str name)
          return env
        else return env.extend name (c.expr.ty r env))
    checkConditions r extended (index + 1) rest

namespace Rule

mutual
/-- Reports the defects of a rule and of all rules below it. -/
def check (r : Registry) (env : TyEnv) : Rule → Report Unit
  | .endpoint head body => do
    let env ← checkConditions r env 0 head.conditions
    Report.within "endpoint" (body.check r env)
  | .error head message => do
    let env ← checkConditions r env 0 head.conditions
    Report.within "error" (message.check r env)
  | .tree head rules => do
    let env ← checkConditions r env 0 head.conditions
    checkRules r env 0 rules

def checkRules (r : Registry) (env : TyEnv) (index : Nat) : List Rule → Report Unit
  | [] => pure ()
  | rule :: rest => do
    Report.within (Text.indexed "rules" index) (rule.check r env)
    checkRules r env (index + 1) rest
end

mutual
/-- What the first name brings about that cannot even be looked up, or not be shown. -/
def breakdown? : Rule → Option Breakdown
  | .endpoint head body =>
    (Expr.itemBreakdown? (head.conditions.map Condition.expr)).or
      (Expr.itemBreakdown? body.exprs)
  | .error head message =>
    (Expr.itemBreakdown? (head.conditions.map Condition.expr)).or message.breakdown?
  | .tree head rules =>
    (Expr.itemBreakdown? (head.conditions.map Condition.expr)).or (anyBreakdown? rules)

def anyBreakdown? : List Rule → Option Breakdown
  | [] => none
  | rule :: rest => rule.breakdown?.or (anyBreakdown? rest)
end

end Rule

/-- The scope of a rule tree: the declared parameters. -/
def TyEnv.ofParameters (parameters : List Parameter) : TyEnv :=
  ⟨parameters.map fun p => (p.name, p.staticType)⟩

end EndpointRules
