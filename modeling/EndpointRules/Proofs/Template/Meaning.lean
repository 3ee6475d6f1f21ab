import EndpointRules.Document.Build
import EndpointRules.Proofs.Document.LiteralPaths

/-! Templates as abbreviations. A template has the text of its parts one after another: a text
stands for itself, and a placeholder for the reference or the call for an attribute that it
abbreviates. -/

namespace EndpointRules.Template
variable {source : Text} {t : Template} {env : Environment} {part : Part} {parts : List Part}

/-- How a document writes the expression that a placeholder abbreviates: a reference, or a call for
an attribute of what is referred to. -/
def written (name : Text) : Option Text → Json
  | none => .obj [("ref", .str name)]
  | some path => .obj [("fn", .str "getAttr"),
      ("argv", .arr [.obj [("ref", .str name)], .str path])]

/-- A string literal without placeholders. -/
def constant (s : Text) : Template := ⟨s, [.text s]⟩

/-- The expression that a placeholder abbreviates. -/
def abbreviated (name : Text) : Option Text → Expr
  | none => .ref (.text name)
  | some path => .call (.text "getAttr") [.ref (.text name), .template (constant path)]

/-- The text of a part by itself. -/
def Part.textIn (env : Environment) : Part → Except EvalError Text
  | .text s => .ok s
  | .placeholder name path => do
    Value.stringify (label name path) (← ((abbreviated name path).eval .standard env).outcome)

/-- A path that can be read is a string literal as it stands. -/
private theorem parse_of_path {path : Text} (h : AttrPath.IsPath path) :
    parse path = .ok (constant path) := by
  have hne : path ≠ "" := by
    rintro rfl
    obtain ⟨steps, hsteps⟩ := h
    have hempty : AttrPath.read "" = .ok none := rfl
    cases hempty.symm.trans hsteps
  have hcanonical : Canonical [.text path] := by
    refine ⟨?_, List.isChain_singleton _⟩
    simpa [Part.WellFormed] using hne
  have hchars : [Part.text path].flatMap Part.chars = path.toList := by
    rw [List.flatMap_singleton, Part.chars, escape_of_plain fun c hc => not_isBrace_of_isPath h hc]
  have hread : outside path 0 [] ([Part.text path].flatMap Part.chars) = .ok [.text path] :=
    outside_chars hcanonical 0 [] fun hne => absurd rfl hne
  rw [hchars] at hread
  rw [parse, hread]
  rfl

/-- The expression that a placeholder abbreviates is what a document gives for it. -/
private theorem buildExpr_written {name : Text} {path : Option Text}
    (h : (Part.placeholder name path).WellFormed) :
    Document.buildExpr (written name path) = .ok (abbreviated name path) := by
  cases path with
  | none => rfl
  | some path =>
    have hpath : Document.buildExpr (.str path) = .ok (.template (constant path)) := by
      rw [Document.buildExpr, Document.buildTemplate, parse_of_path (h.2 path rfl)]
      rfl
    have hargs : Document.buildItems [.obj [("ref", .str name)], .str path] =
        .ok [.ref (.text name), .template (constant path)] := by
      rw [Document.buildItems, Document.buildItems, hpath]
      rfl
    have hcall : Document.buildExpr (written name (some path)) =
        (Document.buildItems [.obj [("ref", .str name)], .str path]).map
          (.call (.text "getAttr")) := rfl
    rw [hcall, hargs]
    rfl

/-- A well-formed placeholder is rendered as the expression that it abbreviates. -/
private theorem render_eq_textIn (h : part.WellFormed) :
    part.render env.lookup = part.textIn env := by
  cases part with
  | text s => rfl
  | placeholder name path =>
    have href : ((Expr.ref (.text name)).eval .standard env).outcome = env.lookup name := rfl
    cases path with
    | none => rfl
    | some path =>
      obtain ⟨steps, hsteps⟩ := h.2 path rfl
      have htext : (constant path).constantText = path := Text.join_singleton path
      have hcall : ((abbreviated name (some path)).eval .standard env).outcome =
          (env.lookup name).map fun v => AttrPath.follow v steps := by
        rw [← href, abbreviated]
        exact Expr.outcome_getAttr_of_path rfl (htext.symm ▸ hsteps)
      rw [Part.render, Part.textIn, hcall]
      cases env.lookup name with
      | error e => rfl
      | ok v =>
        have htarget : target v (some path) = .ok (AttrPath.follow v steps) := by
          rw [target, hsteps]
          rfl
        exact congrArg (· >>= Value.stringify (label name (some path))) htarget

/-- The texts of the parts are put together from left to right, up to the first error. -/
private theorem renderParts_eq (h : ∀ part ∈ parts, part.WellFormed) :
    renderParts env.lookup parts = (parts.mapM (Part.textIn env)).map Text.join := by
  induction parts with
  | nil => rfl
  | cons part rest ih =>
    obtain ⟨hpart, hrest⟩ := List.forall_mem_cons.mp h
    rw [renderParts, render_eq_textIn hpart, ih hrest, List.mapM_cons]
    cases part.textIn env with
    | error e => rfl
    | ok first =>
      cases rest.mapM (Part.textIn env) with
      | error e => rfl
      | ok texts => exact congrArg Except.ok (Text.join_cons first texts).symm

/-- The text of a constant is what rendering gives, whatever is bound. -/
private theorem render_of_isConstant (h : t.isConstant = true) :
    t.render env.lookup = .ok t.constantText := by
  have hparts : ∀ part ∈ t.parts, part.isText = true := List.all_eq_true.mp h
  rw [render, constantText]
  generalize t.parts = parts at hparts
  induction parts with
  | nil => rfl
  | cons part rest ih =>
    obtain ⟨hpart, hrest⟩ := List.forall_mem_cons.mp hparts
    cases part with
    | text s =>
      rw [renderParts, ih hrest, List.map_cons, Text.join_cons]
      rfl
    | placeholder name path => cases hpart

/-- A template ends as its parts do, one after another: with the texts of all parts put together, or
with the first error of a part. A text stands for itself, whether or not there are placeholders, and
a placeholder for the text of the expression that it abbreviates, which is what a document can give
in its place. The text of a placeholder is the value as it stands, with all braces in it. -/
theorem eval_abbreviates (h : parse source = .ok t) (env : Environment) :
    ((Expr.template t).eval .standard env).outcome =
      (t.parts.mapM (Part.textIn env)).map (fun texts => some (.string (Text.join texts))) ∧
    t.render env.lookup = (t.parts.mapM (Part.textIn env)).map Text.join ∧
    ∀ name path, .placeholder name path ∈ t.parts →
      Document.buildExpr (written name path) = .ok (abbreviated name path) ∧
      ∀ s, ((abbreviated name path).eval .standard env).outcome = .ok (some (.string s)) →
        (Part.placeholder name path).textIn env = .ok s := by
  have hformed := (canonical_of_parse h).1
  have hrender : t.render env.lookup = (t.parts.mapM (Part.textIn env)).map Text.join :=
    renderParts_eq hformed
  have heval : Expr.evalTemplate env t = t.render env.lookup := by
    rw [Expr.evalTemplate]
    split
    · next hconstant => exact (render_of_isConstant hconstant).symm
    · rfl
  refine ⟨?_, hrender, fun name path hpart => ⟨buildExpr_written (hformed _ hpart), ?_⟩⟩
  · rw [Expr.eval, Noted.outcome_ofExcept, heval, hrender]
    cases t.parts.mapM (Part.textIn env) <;> rfl
  · intro s hs
    rw [Part.textIn, hs]
    rfl

/-- Text with braces around a placeholder with a path, and a placeholder without one. -/
def sampleTemplate : Template where
  source := "\x7b\x7b\x7bu#parts[0]\x7d\x7d\x7d-\x7bA\x7d"
  parts := [.text "\x7b", .placeholder "u" (some "parts[0]"), .text "\x7d-", .placeholder "A" none]

/-- A text with the braces of a placeholder, and a truth value. -/
def sampleBindings : Environment :=
  .ofFrame [("u", some (.record [("parts", .list [.string "\x7bA\x7d"])])),
    ("A", some (.bool true))]

theorem eval_abbreviates_sample :
    parse sampleTemplate.source = .ok sampleTemplate ∧
    ((Expr.template sampleTemplate).eval .standard sampleBindings).outcome =
      (sampleTemplate.parts.mapM (Part.textIn sampleBindings)).map
        (fun texts => some (.string (Text.join texts))) ∧
    sampleTemplate.parts.mapM (Part.textIn sampleBindings) =
      .ok ["\x7b", "\x7bA\x7d", "\x7d-", "true"] ∧
    Document.buildExpr (written "u" (some "parts[0]")) =
      .ok (abbreviated "u" (some "parts[0]")) ∧
    (Part.placeholder "u" (some "parts[0]")).textIn sampleBindings = .ok "\x7bA\x7d" := by
  have hparse : parse sampleTemplate.source = .ok sampleTemplate := by decide +kernel
  obtain ⟨heval, -, hplaceholder⟩ := eval_abbreviates hparse sampleBindings
  have hmem : .placeholder "u" (some "parts[0]") ∈ sampleTemplate.parts := by
    simp [sampleTemplate]
  obtain ⟨hbuild, htext⟩ := hplaceholder "u" (some "parts[0]") hmem
  exact ⟨hparse, heval, by decide +kernel, hbuild, htext _ (by decide +kernel)⟩

end EndpointRules.Template
