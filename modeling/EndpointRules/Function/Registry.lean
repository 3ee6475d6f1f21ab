import EndpointRules.Function.Predicate
import EndpointRules.Function.Resource
import EndpointRules.Function.Text
import EndpointRules.Expr

/-! The functions that a rule set may call, by their qualified names. -/

namespace EndpointRules

/-- Functions in the order of their registration. -/
structure Registry where
  functions : List Function

namespace Registry

def empty : Registry := ⟨[]⟩

def size (r : Registry) : Nat := r.functions.length

def find? (r : Registry) (name : Text) : Option Function :=
  r.functions.find? fun f => f.qualifiedName = name

def contains (r : Registry) (name : Text) : Bool := (r.find? name).isSome

/-- Adds a function unless its qualified name is taken. -/
def register? (r : Registry) (f : Function) : Option Registry :=
  if r.contains f.qualifiedName then none else some ⟨r.functions ++ [f]⟩

/-- The qualified names of a namespace in the order of registration. -/
def namesIn (r : Registry) (namespaceName : Text) : List Text :=
  (r.functions.filter fun f => f.namespaceName = namespaceName).map Function.qualifiedName

def get (r : Registry) (name : Name) : Except EvalError Function :=
  match name with
  | .text s => match r.find? s with
    | some f => .ok f
    | none => .error (.unknownFunction s)
  | name => match name.breakdown? with
    | some b => .error (.breakdown b)
    | none => .error (.unknownFunction name.plainText)

/-- The function that a call names, which has to take the number of arguments. -/
def getFor (r : Registry) (name : Name) (count : Nat) : Except EvalError Function := do
  let f ← r.get name
  if f.params.length = count then return f
  else throw (.arity f.params.length count name.plainText)

/-- The first argument, counted from `position`, whose type does not fit. -/
def checkArguments (name : Text) (position : Nat) :
    (expected got : List Ty) → Except EvalError Unit
  | e :: expected, g :: got =>
    if e.assignable g then checkArguments name (position + 1) expected got
    else .error (.typeMismatch e.text g.text (name ++ " argument " ++ toString position))
  | _, _ => .ok ()

/-- The return type of a call with arguments of these types. -/
def checkCall (r : Registry) (name : Name) (types : List Ty) : Except EvalError Ty := do
  let f ← r.getFor name types.length
  checkArguments name.plainText 0 f.params types
  return f.returns

/-- Applies a function. -/
def call (r : Registry) (name : Name) (args : List (Option Value)) :
    Except EvalError (Option Value) := do
  (← r.getFor name args.length).body args

/-- Functions that need no namespace. -/
def core : Registry := ⟨[.isSet, .not, .booleanEquals, .stringEquals, .getAttr, .substring,
  .uriEncode, .isValidHostLabel, .parseURL]⟩

def standard : Registry := ⟨core.functions ++ [.parseArn, .isVirtualHostableBucket]⟩

/-- A further function, which notes its argument, so that evaluations can be counted. -/
def withProbe (r : Registry) : Registry := ⟨r.functions ++ [.probe "test" "count"]⟩

end Registry

/-- A function as it is put together; what is missing is noticed in the end. -/
structure Function.Draft where
  namespaceName : Text
  name : Text
  params : List Ty
  returns : Option Ty
  body : Option (List (Option Value) → Except EvalError (Option Value))

/-- Why a function cannot be registered. -/
inductive Registry.Refusal where
  | noReturnType (name : Text)
  | noBody (name : Text)
  | taken (qualifiedName : Text)
  deriving DecidableEq, Repr

def Registry.Refusal.message : Refusal → Text
  | .noReturnType name => "Function " ++ name ++ " missing return type"
  | .noBody name => "Function " ++ name ++ " missing implementation"
  | .taken name => "Function " ++ name ++ " already registered"

def Function.Draft.build (d : Draft) : Except Registry.Refusal Function :=
  match d.returns, d.body with
  | none, _ => .error (.noReturnType d.name)
  | some _, none => .error (.noBody d.name)
  | some returns, some body =>
    .ok ⟨d.namespaceName, d.name, d.params, returns, body, false⟩

def Registry.registerDraft (r : Registry) (d : Function.Draft) : Except Refusal Registry := do
  let f ← d.build
  match r.register? f with
  | some r => return r
  | none => throw (.taken f.qualifiedName)

end EndpointRules
