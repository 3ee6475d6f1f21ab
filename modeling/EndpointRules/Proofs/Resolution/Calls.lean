import EndpointRules.Proofs.Resolution.Notes
import Mathlib.Data.List.Forall2

/-! The calls of a function that records its arguments. They are made in the order of evaluation,
each occurrence of a call at most once, and only where the walk comes to. -/

namespace EndpointRules

/-! Recorded values. -/

namespace Noted
variable {ε ε' α β ι κ : Type} {R S : List (Option Value) → ι → Prop} {items more : List ι}

/-- The arguments of the recorded calls, in order. -/
def recorded (x : Noted Event ε α) : List (List (Option Value)) := x.notes.filterMap Event.recorded?

/-- The recorded values belong, one after another, to some of the items in their order. -/
def RecordsFrom (R : List (Option Value) → ι → Prop) (items : List ι) (x : Noted Event ε α) :
    Prop := List.SublistForall₂ R x.recorded items

private theorem recordsFrom_of_nil {x : Noted Event ε α} (h : x.recorded = []) :
    x.RecordsFrom R items := by
  rw [RecordsFrom, h]
  exact .nil

/-- A sequence records nothing if no step of it does. -/
theorem recorded_bind_nil {x : Noted Event ε α} {f : α → Noted Event ε β} (hx : x.recorded = [])
    (hf : ∀ a, (f a).recorded = []) : (x >>= f).recorded = [] := by
  cases h : x.outcome with
  | error e =>
    rw [recorded, notes_bind_error x f h]
    exact hx
  | ok a =>
    rw [recorded, notes_bind_ok x f h, List.filterMap_append]
    exact List.append_eq_nil_iff.mpr ⟨hx, hf a⟩

/-- What a sequence records belongs to the items of its steps. -/
private theorem RecordsFrom.bind {x : Noted Event ε α} {f : α → Noted Event ε β}
    (h : x.RecordsFrom R items) (hf : ∀ a, x.outcome = .ok a → (f a).RecordsFrom R more) :
    (x >>= f).RecordsFrom R (items ++ more) := by
  obtain ⟨made, hmade, hsub⟩ := List.sublistForall₂_iff.mp h
  cases hx : x.outcome with
  | error e =>
    rw [RecordsFrom, recorded, notes_bind_error x f hx]
    exact List.sublistForall₂_iff.mpr
      ⟨made, hmade, hsub.trans (List.sublist_append_left items more)⟩
  | ok a =>
    obtain ⟨others, hothers, hsub'⟩ := List.sublistForall₂_iff.mp (hf a hx)
    rw [RecordsFrom, recorded, notes_bind_ok x f hx, List.filterMap_append]
    exact List.sublistForall₂_iff.mpr
      ⟨made ++ others, List.rel_append hmade hothers, hsub.append hsub'⟩

/-- Steps that record nothing can follow. -/
private theorem RecordsFrom.bind_nil {x : Noted Event ε α} {f : α → Noted Event ε β}
    (h : x.RecordsFrom R items) (hf : ∀ a, (f a).recorded = []) :
    (x >>= f).RecordsFrom R items := by
  rw [← List.append_nil items]
  exact h.bind fun a _ => recordsFrom_of_nil (hf a)

/-- Steps that record nothing can come first. -/
private theorem recordsFrom_bind {x : Noted Event ε α} {f : α → Noted Event ε β}
    (hx : x.recorded = [])
    (hf : ∀ a, x.outcome = .ok a → (f a).RecordsFrom R items) :
    (x >>= f).RecordsFrom R items := by
  rw [← List.nil_append items]
  exact RecordsFrom.bind (recordsFrom_of_nil hx) hf

private theorem RecordsFrom.imp {x : Noted Event ε α} (h : x.RecordsFrom R items)
    (hS : ∀ vs item, R vs item → S vs item) : x.RecordsFrom S items := by
  obtain ⟨made, hmade, hsub⟩ := List.sublistForall₂_iff.mp h
  exact List.sublistForall₂_iff.mpr ⟨made, hmade.imp fun _ _ => hS _ _, hsub⟩

/-- Items can be seen as parts of others. -/
private theorem RecordsFrom.map {x : Noted Event ε α} {T : List (Option Value) → κ → Prop}
    (h : x.RecordsFrom R items) (f : ι → κ) (hT : ∀ vs item, R vs item → T vs (f item)) :
    x.RecordsFrom T (items.map f) :=
  List.sublistForall₂_map_right_iff.mpr (h.imp hT)

/-- The items to which recorded values belong have increasing numbers. -/
theorem RecordsFrom.exists_indices {x : Noted Event ε α} (h : x.RecordsFrom R items) :
    ∃ indices : List Nat, indices.Pairwise (· < ·) ∧
      List.Forall₂ (fun i vs => ∃ item, items[i]? = some item ∧ R vs item) indices x.recorded := by
  unfold RecordsFrom at h
  generalize x.recorded = values at h
  induction h with
  | nil => exact ⟨[], .nil, .nil⟩
  | @cons vs item values items hitem _ ih =>
    obtain ⟨indices, horder, hvalues⟩ := ih
    refine ⟨0 :: indices.map (· + 1), .cons ?_ ?_, .cons ⟨item, rfl, hitem⟩ ?_⟩
    · simp
    · rw [List.pairwise_map]
      exact horder.imp Nat.succ_lt_succ
    · exact List.forall₂_map_left_iff.mpr hvalues
  | cons_right _ ih =>
    obtain ⟨indices, horder, hvalues⟩ := ih
    refine ⟨indices.map (· + 1), ?_, List.forall₂_map_left_iff.mpr hvalues⟩
    rw [List.pairwise_map]
    exact horder.imp Nat.succ_lt_succ

end Noted

/-! Calls in expressions. -/

namespace Expr

mutual
/-- The arguments of the calls of a function in an expression, in the order of evaluation: those of
a call are evaluated before the call itself is made. -/
def callsOf (function : Text) : Expr → List (List Expr)
  | .bool _ | .int _ | .template _ | .ref _ => []
  | .list items => callsOfAll function items
  | .record fields => callsOfFields function fields
  | .call (.text name) args =>
    callsOfAll function args ++ if name = function then [args] else []
  | .call (.other _) args => callsOfAll function args

def callsOfAll (function : Text) : List Expr → List (List Expr)
  | [] => []
  | e :: rest => e.callsOf function ++ callsOfAll function rest

def callsOfFields (function : Text) : List (Text × Expr) → List (List Expr)
  | [] => []
  | (_, e) :: rest => e.callsOf function ++ callsOfFields function rest
end

end Expr

/-- The name of the function that records. -/
def Registry.probeName : Text := "test.count"

namespace Registry
variable {r : Registry} {env : Environment}

/-- Of the functions that are registered, only the probe records. -/
private theorem Silent.eq_probeName (hs : r.Silent) {name : Text} {f : Function}
    (hfind : r.withProbe.find? name = some f) (hf : f.recording = true) : name = probeName := by
  have hname : f.qualifiedName = name := by simpa using List.find?_some hfind
  obtain hmem | hmem := List.mem_append.mp (List.mem_of_find?_eq_some hfind)
  · rw [hs f hmem] at hf
    cases hf
  · rw [← hname, List.mem_singleton.mp hmem]
    rfl

private theorem Silent.recorded_apply (hs : r.Silent) (name : Name) (args : List (Option Value)) :
    (r.withProbe.apply name args).recorded = [] ∨
      name = .text probeName ∧ (r.withProbe.apply name args).recorded = [args] := by
  cases hget : r.withProbe.getFor name args.length with
  | error e =>
    rw [apply, hget]
    exact .inl rfl
  | ok f =>
    obtain ⟨s, rfl, hfind, -⟩ := getFor_ok_iff.mp hget
    rw [apply, hget, Noted.recorded, Noted.notes_bind_ok _ _ (Noted.outcome_ofExcept _)]
    cases hf : f.recording with
    | false => exact .inl rfl
    | true =>
      rw [hs.eq_probeName hfind hf]
      exact .inr ⟨rfl, rfl⟩

/-- The values recorded for calls are those of their arguments. -/
def ArgumentsHave (r : Registry) (env : Environment) (vs : List (Option Value))
    (args : List Expr) : Prop := (Expr.evalArgs r env args).outcome = .ok vs

variable {R : List (Option Value) → List Expr → Prop}

private theorem records_evalItems {items : List Expr}
    (h : ∀ e ∈ items, (e.eval r env).RecordsFrom R (e.callsOf probeName)) :
    (Expr.evalItems r env items).RecordsFrom R (Expr.callsOfAll probeName items) := by
  induction items with
  | nil => exact Noted.recordsFrom_of_nil rfl
  | cons e rest ih =>
    obtain ⟨he, hrest⟩ := List.forall_mem_cons.mp h
    refine he.bind fun v _ => ?_
    cases v with
    | none => exact Noted.recordsFrom_of_nil rfl
    | some v => exact (ih hrest).bind_nil fun _ => rfl

private theorem records_evalFields {fields : List (Text × Expr)}
    (h : ∀ field ∈ fields, (field.2.eval r env).RecordsFrom R (field.2.callsOf probeName)) :
    (Expr.evalFields r env fields).RecordsFrom R (Expr.callsOfFields probeName fields) := by
  induction fields with
  | nil => exact Noted.recordsFrom_of_nil rfl
  | cons field rest ih =>
    obtain ⟨he, hrest⟩ := List.forall_mem_cons.mp h
    refine he.bind fun v _ => (ih hrest).bind_nil fun others => ?_
    cases v <;> rfl

private theorem records_evalArgs {args : List Expr}
    (h : ∀ e ∈ args, (e.eval r env).RecordsFrom R (e.callsOf probeName)) :
    (Expr.evalArgs r env args).RecordsFrom R (Expr.callsOfAll probeName args) := by
  induction args with
  | nil => exact Noted.recordsFrom_of_nil rfl
  | cons e rest ih =>
    obtain ⟨he, hrest⟩ := List.forall_mem_cons.mp h
    exact he.bind fun v _ => (ih hrest).bind_nil fun _ => rfl

namespace Silent

/-- An expression records the arguments of calls in it, each at most once and in order. -/
private theorem records_eval (hs : r.Silent) (e : Expr) :
    (e.eval r.withProbe env).RecordsFrom (r.withProbe.ArgumentsHave env) (e.callsOf probeName) := by
  induction e using Expr.ind with
  | bool b => exact Noted.recordsFrom_of_nil rfl
  | int n => exact Noted.recordsFrom_of_nil rfl
  | template t => exact Noted.recordsFrom_of_nil rfl
  | list items ih => exact (records_evalItems ih).bind_nil fun _ => rfl
  | record fields ih => exact (records_evalFields ih).bind_nil fun _ => rfl
  | ref name => exact Noted.recordsFrom_of_nil rfl
  | call f args ih =>
    cases f with
    | other name =>
      refine (records_evalArgs ih).bind_nil fun vs => ?_
      obtain hnone | ⟨hname, -⟩ := hs.recorded_apply (.other name) vs
      · exact hnone
      · cases hname
    | text name =>
      refine (records_evalArgs ih).bind fun vs hvs => ?_
      obtain hnone | ⟨hname, hone⟩ := hs.recorded_apply (.text name) vs
      · exact Noted.recordsFrom_of_nil hnone
      · rw [if_pos (Name.text.inj hname), Noted.RecordsFrom, hone]
        exact .cons hvs .nil

private theorem records_evalText (hs : r.Silent) (context : Text) (e : Expr) :
    (e.evalText r.withProbe env context).RecordsFrom (r.withProbe.ArgumentsHave env)
      (e.callsOf probeName) := by
  refine (hs.records_eval e).bind_nil fun v => ?_
  split <;> rfl

end Silent
end Registry

/-! Calls in rules. -/

/-- An occurrence of a call in a rule tree: the position of its rule, the conditions of the rule
that stand in front of it, and the arguments of the call. -/
structure Occurrence where
  position : List Nat
  held : List Condition
  args : List Expr

/-- The calls of a function in the conditions of a rule behind others, in the order of
evaluation. -/
def Condition.occurrences (function : Text) (position : List Nat) (held : List Condition) :
    List Condition → List Occurrence
  | [] => []
  | c :: rest =>
    (c.expr.callsOf function).map (⟨position, held, ·⟩) ++
      Condition.occurrences function position (held ++ [c]) rest

/-- The calls of a function in an endpoint: in its URL, its headers and its properties. -/
def EndpointBody.callsOf (function : Text) (body : EndpointBody) : List (List Expr) :=
  body.url.callsOf function ++
    ((body.headers.flatMap fun header => Expr.callsOfAll function header.2) ++
      Expr.callsOfFields function body.properties)

namespace Rule

mutual
/-- The calls of a function in a rule at a position, in the order of evaluation: in its conditions,
then in what it gives or in the rules below it. -/
def occurrences (function : Text) (position : List Nat) : Rule → List Occurrence
  | .endpoint head body =>
    Condition.occurrences function position [] head.conditions ++
      (body.callsOf function).map (⟨position, head.conditions, ·⟩)
  | .error head message =>
    Condition.occurrences function position [] head.conditions ++
      (message.callsOf function).map (⟨position, head.conditions, ·⟩)
  | .tree head rules =>
    Condition.occurrences function position [] head.conditions ++
      occurrencesOfAll function position 0 rules

def occurrencesOfAll (function : Text) (position : List Nat) (index : Nat) :
    List Rule → List Occurrence
  | [] => []
  | rule :: rest =>
    rule.occurrences function (position ++ [index]) ++
      occurrencesOfAll function position (index + 1) rest
end

end Rule

namespace WalkContext
open Registry
variable {ctx : WalkContext} {base : Registry} {position : List Nat} {env inner : Environment}
  {rule : Rule}

/-- The walk comes to the place of a call, and the arguments have their values there. -/
def MakesCall (ctx : WalkContext) (position : List Nat) (env : Environment) (rule : Rule)
    (vs : List (Option Value)) (o : Occurrence) : Prop :=
  ∃ found inner, ctx.ComesTo position env rule ⟨o.position, found, o.held, inner⟩ ∧
    ctx.registry.ArgumentsHave inner vs o.args

private theorem recorded_visit (event : Event) (h : event.recorded? = none) :
    (ctx.visit event).recorded = [] := by
  rw [visit, Noted.noteIf, Noted.recorded]
  split
  · rw [List.filterMap_cons_none h]
    rfl
  · rfl

/-- Calls in the expressions of a rule are made where the walk comes to them. -/
private theorem records_of_comesTo {rest held : List Condition} {ε α : Type} {x : Run ε α}
    {calls : List (List Expr)} (hsplit : rule.conditions = held ++ rest)
    (hheld : env.test ctx.registry held = .ok (some inner))
    (h : x.RecordsFrom (ctx.registry.ArgumentsHave inner) calls) :
    x.RecordsFrom (ctx.MakesCall position env rule) (calls.map (⟨position, held, ·⟩)) :=
  h.map _ fun _ _ hvs => ⟨rule, inner, .here hsplit hheld, hvs⟩

private theorem records_holds? (hs : base.Silent) (hr : ctx.registry = base.withProbe)
    (held : List Condition) {conditions : List Condition}
    (hsplit : rule.conditions = held ++ conditions)
    (hheld : env.test ctx.registry held = .ok (some inner)) (path : Text) (index : Nat) :
    (ctx.holds? path inner index conditions).RecordsFrom (ctx.MakesCall position env rule)
      (Condition.occurrences probeName position held conditions) := by
  induction conditions generalizing held inner index with
  | nil => exact Noted.recordsFrom_of_nil rfl
  | cons c rest ih =>
    have heval : (c.expr.eval ctx.registry inner).RecordsFrom
        (ctx.registry.ArgumentsHave inner) (c.expr.callsOf probeName) := by
      rw [hr]
      exact hs.records_eval c.expr
    refine (records_of_comesTo hsplit hheld heval).bind fun v hv => ?_
    split
    · next htrue =>
      have hsplit' : rule.conditions = (held ++ [c]) ++ rest := by
        rw [hsplit, List.append_assoc, List.singleton_append]
      have hheld' : env.test ctx.registry (held ++ [c]) = .ok (some (inner.pass c v)) := by
        rw [Environment.test_append, Environment.behind_of_holds hheld,
          Environment.test_cons_of_true hv htrue]
        rfl
      exact ih (held ++ [c]) hsplit' hheld' (index + 1)
    · exact Noted.recordsFrom_bind (recorded_visit _ rfl) fun _ _ => Noted.recordsFrom_of_nil rfl

section Body
variable (hs : base.Silent) (hr : ctx.registry = base.withProbe)
include hs hr

private theorem records_evalText (context : Text) (e : Expr) :
    (e.evalText ctx.registry env context).RecordsFrom (ctx.registry.ArgumentsHave env)
      (e.callsOf probeName) := by
  rw [hr]
  exact hs.records_evalText context e

private theorem records_headerValues (context : Text) (values : List Expr) :
    (ctx.headerValues env context values).RecordsFrom (ctx.registry.ArgumentsHave env)
      (Expr.callsOfAll probeName values) := by
  induction values with
  | nil => exact Noted.recordsFrom_of_nil rfl
  | cons e rest ih =>
    exact (records_evalText hs hr context e).bind fun s _ => ih.bind_nil fun _ => rfl

private theorem records_headers (path : Text) (headers : List (Text × List Expr)) :
    (ctx.headers env path headers).RecordsFrom (ctx.registry.ArgumentsHave env)
      (headers.flatMap fun header => Expr.callsOfAll probeName header.2) := by
  induction headers with
  | nil => exact Noted.recordsFrom_of_nil rfl
  | cons header rest ih =>
    exact (records_headerValues hs hr _ header.2).bind fun texts _ => ih.bind_nil fun _ => rfl

private theorem records_properties (path : Text) (properties : List (Text × Expr)) :
    (ctx.properties env path properties).RecordsFrom (ctx.registry.ArgumentsHave env)
      (Expr.callsOfFields probeName properties) := by
  induction properties with
  | nil => exact Noted.recordsFrom_of_nil rfl
  | cons property rest ih =>
    have heval : (property.2.eval ctx.registry env).RecordsFrom (ctx.registry.ArgumentsHave env)
        (property.2.callsOf probeName) := by
      rw [hr]
      exact hs.records_eval property.2
    refine heval.bind fun v _ => ?_
    cases v with
    | none => exact Noted.recordsFrom_of_nil rfl
    | some v => exact ih.bind_nil fun _ => rfl

private theorem records_endpoint (path : Text) (body : EndpointBody) :
    (ctx.endpoint env path body).RecordsFrom (ctx.registry.ArgumentsHave env)
      (body.callsOf probeName) :=
  (records_evalText hs hr _ body.url).bind fun _ _ =>
    (records_headers hs hr path body.headers).bind fun _ _ =>
      (records_properties hs hr path body.properties).bind_nil fun _ => rfl

private theorem records_rejection (path : Text) (message : Expr) :
    (ctx.rejection env path message).RecordsFrom (ctx.registry.ArgumentsHave env)
      (message.callsOf probeName) :=
  (records_evalText hs hr _ message).bind_nil fun _ => rfl

end Body

/-- A rule that is tried records calls in its conditions, and then what follows if they hold. -/
private theorem records_of_finish (hs : base.Silent) (hr : ctx.registry = base.withProbe)
    {later : List Occurrence}
    (h : ∀ inner, env.test ctx.registry rule.conditions = .ok (some inner) →
      (ctx.finish inner rule).RecordsFrom (ctx.MakesCall position env rule) later) :
    (ctx.tryRule env rule).RecordsFrom (ctx.MakesCall position env rule)
      (Condition.occurrences probeName position [] rule.conditions ++ later) := by
  rw [tryRule_eq]
  refine (records_holds? hs hr [] rfl rfl rule.path 0).bind fun found hfound => ?_
  rw [outcome_holds?] at hfound
  cases found with
  | none => exact Noted.recordsFrom_of_nil rfl
  | some inner => exact Noted.recordsFrom_bind (recorded_visit _ rfl) fun _ _ => h inner hfound

/-- Children that are tried behind some that give nothing record calls below their parent. -/
private theorem records_tryRules {head : RuleHead} (before : List Rule) {rules : List Rule}
    (htest : env.test ctx.registry head.conditions = .ok (some inner))
    (hbefore : (ctx.tryRules inner before).outcome = .ok none)
    (h : ∀ rule ∈ rules, ∀ position env, (ctx.tryRule env rule).RecordsFrom
      (ctx.MakesCall position env rule) (rule.occurrences probeName position)) :
    (ctx.tryRules inner rules).RecordsFrom
      (ctx.MakesCall position env (.tree head (before ++ rules)))
      (Rule.occurrencesOfAll probeName position before.length rules) := by
  induction rules generalizing before with
  | nil => exact Noted.recordsFrom_of_nil rfl
  | cons rule rest ih =>
    obtain ⟨hrule, hrest⟩ := List.forall_mem_cons.mp h
    have hfirst := (hrule (position ++ [before.length]) inner.push).imp
      (S := ctx.MakesCall position env (.tree head (before ++ rule :: rest))) <| by
        rintro vs o ⟨found, place, hcomes, hvs⟩
        exact ⟨found, place, .child htest hbefore hcomes, hvs⟩
    refine hfirst.bind fun found hfound => ?_
    cases found with
    | some result => exact Noted.recordsFrom_of_nil rfl
    | none =>
      have hnone : (ctx.tryRules inner (before ++ [rule])).outcome = .ok none := by
        rw [outcome_tryRules_behind _ hbefore, outcome_tryRules_cons, hfound]
        rfl
      have hrecords := ih (before ++ [rule]) hnone hrest
      rw [List.append_assoc, List.singleton_append, List.length_append,
        List.length_singleton] at hrecords
      exact hrecords

/-- A rule that is tried records calls in it, each at most once, in the order of evaluation and
where the walk comes to. -/
private theorem records_tryRule (hs : base.Silent) (hr : ctx.registry = base.withProbe)
    (rule : Rule)
    (position : List Nat) (env : Environment) :
    (ctx.tryRule env rule).RecordsFrom (ctx.MakesCall position env rule)
      (rule.occurrences probeName position) := by
  induction rule using Rule.ind generalizing position env with
  | endpoint head body =>
    refine records_of_finish hs hr fun inner htest => ?_
    exact (records_of_comesTo (List.append_nil _).symm htest
      (records_endpoint hs hr head.path body)).bind_nil fun _ => rfl
  | error head message =>
    refine records_of_finish hs hr fun inner htest => ?_
    exact (records_of_comesTo (List.append_nil _).symm htest
      (records_rejection hs hr head.path message)).bind_nil fun _ => rfl
  | tree head rules ih =>
    refine records_of_finish hs hr fun inner htest => ?_
    have hrules : (ctx.tryRules inner rules).RecordsFrom
        (ctx.MakesCall position env (.tree head rules))
        (Rule.occurrencesOfAll probeName position 0 rules) :=
      records_tryRules [] htest rfl ih
    refine hrules.bind_nil fun found => ?_
    cases found with
    | some result => rfl
    | none =>
      exact Noted.recorded_bind_nil (recorded_visit _ rfl) fun _ => rfl

end WalkContext

/-! Calls in a resolution. -/

namespace Resolver
variable {res : Resolver} {base : Registry} {frame : Frame} {vs : List (Option Value)}
  {o : Occurrence}

/-- A resolution makes the call at an occurrence, with these values for its arguments. -/
structure MakesCall (res : Resolver) (frame : Frame) (vs : List (Option Value)) (o : Occurrence) :
    Prop where
  /-- The conditions in front of it hold, those of the rules above it too, and the rules in front of
  these give nothing. -/
  comes : ∃ rule env, res.ComesTo frame ⟨o.position, rule, o.held, env⟩ ∧
    (Expr.evalArgs res.registry env o.args).outcome = .ok vs
  /-- It is not behind a condition that does not hold, in the same rule or below it. -/
  not_behind : ∀ stop c rest, res.ComesTo frame stop →
    stop.rule.conditions = stop.held ++ c :: rest → ¬ c.Holds res.registry stop.env →
    (o.position = stop.position → o.held.length ≤ stop.held.length) ∧
      ∀ index further, o.position ≠ stop.position ++ index :: further
  /-- It is not in a rule behind the one that gives the result. -/
  not_beyond : ∀ last, res.ComesTo frame last → last.IsEnd → ¬ last.position < o.position

private theorem makesCall_of_comesTo
    (h : res.context.MakesCall [] (.ofFrame frame) res.ruleSet.root vs o) :
    res.MakesCall frame vs o := by
  obtain ⟨rule, env, hcomes, hvs⟩ := h
  refine ⟨⟨rule, env, hcomes, hvs⟩, ?_, ?_⟩
  · intro stop c rest hstop hsplit hfails
    exact WalkContext.ComesTo.halted hstop hsplit hfails hcomes
  · intro last hlast hend
    exact WalkContext.ComesTo.not_beyond hlast hend hcomes

/-- What is recorded for the root is recorded below it. -/
private theorem recorded_resolveBound (res : Resolver) (frame : Frame) :
    (res.resolveBound frame).recorded =
      (res.context.tryRule (.ofFrame frame) res.ruleSet.root).recorded := by
  have hroot : (res.context.tryRule (.ofFrame frame) res.ruleSet.root) = (do
      res.context.visit (.matched .tree Rule.rootPath)
      res.context.finish (.ofFrame frame) res.ruleSet.root) := rfl
  rw [hroot, Noted.recorded, Noted.recorded, notes_resolveBound, Noted.notes_bind_ok _ _ rfl,
    List.filterMap_append]
  have hvisit : (res.context.visit (.matched .tree Rule.rootPath)).notes.filterMap
      Event.recorded? = [] := WalkContext.recorded_visit _ rfl
  rw [hvisit, List.nil_append]

theorem records_resolveBound (hs : base.Silent) (hr : res.registry = base.withProbe)
    (frame : Frame) : (res.resolveBound frame).RecordsFrom (res.MakesCall frame)
      (res.ruleSet.root.occurrences Registry.probeName []) := by
  have hwalk : (res.context.tryRule (.ofFrame frame) res.ruleSet.root).RecordsFrom
      (res.context.MakesCall [] (.ofFrame frame) res.ruleSet.root)
      (res.ruleSet.root.occurrences Registry.probeName []) :=
    WalkContext.records_tryRule hs hr res.ruleSet.root [] (.ofFrame frame)
  rw [Noted.RecordsFrom, recorded_resolveBound]
  exact hwalk.imp fun _ _ => makesCall_of_comesTo

end Resolver
end EndpointRules
