import EndpointRules.Document.Build
import EndpointRules.Event
import EndpointRules.Json.Parser
import EndpointRules.Scope.Table

/-! Loaded rule sets. -/

namespace EndpointRules

/-- A rule set that has passed all checks. -/
structure RuleSet where
  version : Text
  parameters : List Parameter
  rules : List Rule
  deriving Repr

namespace RuleSet

def root (rs : RuleSet) : Rule := Rule.root rs.rules

/-- The scope of each tree rule, by its path. -/
def scopes (rs : RuleSet) : List (Text × Scope) := rs.root.scopes

def parameter? (rs : RuleSet) (name : Text) : Option Parameter :=
  findParameter? rs.parameters name

end RuleSet

/-- Why a rule set was not loaded: it has defects, or nothing could be built from it. -/
inductive LoadError where
  | schema (errors : List Diagnostic)
  | build (e : Document.BuildError)
  deriving Repr

/-- Loading goes on no further. -/
def LoadError.breakdown (b : Breakdown) : LoadError := .build (.breakdown b)

def LoadError.message : LoadError → Text
  | .schema errors => schemaMessage errors
  | .build e => e.message

namespace RuleSet

/-- The rule set that a document describes, before its names and types are checked. -/
def build (document : Json) : Except Document.BuildError RuleSet := do
  let fields ← Document.members document
  let parameters ← Document.buildParameters
    (← Document.members ((Fields.get? "parameters" fields).getD (.obj [])))
  let rules ← Document.buildRules Rule.rootPath 0
    (← Document.items (← Document.need "rules" fields))
  match ← Document.need "version" fields with
  | .str version => return ⟨version, parameters, rules⟩
  | v => throw (.misplaced v.kindWord)

/-- Reports the defects of names and types. -/
def check (r : Registry) (rs : RuleSet) : Report Unit :=
  rs.root.check r (TyEnv.ofParameters rs.parameters)

/-- The defects of a document's structure, unless the search for them is broken off. -/
def structureErrors (r : Registry) (document : Json) : Except LoadError (List Diagnostic) :=
  (Document.validateRuleSet r document).errors.mapError .breakdown

/-- Refuses a list of defects unless it is empty. -/
def refuse (errors : List Diagnostic) : Except LoadError Unit :=
  if errors.isEmpty then .ok () else .error (.schema errors)

/-- Refuses a rule set whose names or types have defects. A name that cannot even be looked up or
be shown ends the search for them. -/
def analyze (r : Registry) (rs : RuleSet) : Except LoadError Unit :=
  match rs.root.breakdown? with
  | some b => .error (.breakdown b)
  | none => refuse (rs.check r).errors

/-- Loads a document in three passes: its structure, its rules, their names and types. -/
def load (r : Registry) (document : Json) : Except LoadError RuleSet := do
  refuse (← structureErrors r document)
  let rs ← (build document).mapError .build
  analyze r rs
  return rs

/-- What is noted when a rule set has been loaded. -/
def loadedEvent (rs : RuleSet) : Event :=
  .loaded rs.version rs.parameters.length rs.scopes.length

def loadNoted (r : Registry) (document : Json) : Run LoadError RuleSet := do
  let rs ← Noted.ofExcept (load r document)
  Noted.note rs.loadedEvent
  return rs

/-- The document in a text in which no object may repeat a key. -/
def document (text : Text) : Except LoadError Json :=
  match Json.parseDistinct text.toList with
  | .ok document => .ok document
  | .error (.refused key) =>
    .error (.schema [.ofDocument ("Duplicate key: " ++ Text.quoted key) (.str key)])
  | .error (.fault fault) =>
    .error (.schema [.ofDocument ("Invalid JSON: " ++ fault.message text.toList) .null])
  | .error (.breakdown b) => .error (.breakdown b)

/-- Loads a rule set from JSON text and notes it. -/
def loadText (r : Registry) (text : Text) : Run LoadError RuleSet := do
  loadNoted r (← Noted.ofExcept (document text))

end RuleSet
end EndpointRules
