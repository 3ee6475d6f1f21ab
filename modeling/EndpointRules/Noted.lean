/-! Computations that note what happens on their way. -/

namespace EndpointRules

/-- A computation that ends in a result or an error. What it has noted stays noted either way. -/
structure Noted (ω ε α : Type) where
  notes : List ω
  outcome : Except ε α

namespace Noted
variable {ω ε ε' α β : Type}

/-- Ends at once, without a note. -/
def ofExcept (x : Except ε α) : Noted ω ε α := ⟨[], x⟩

/-- Goes on with the result, unless there is an error. -/
def andThen (x : Noted ω ε α) (f : α → Noted ω ε β) : Noted ω ε β :=
  match x.outcome with
  | .ok a => let y := f a; ⟨x.notes ++ y.notes, y.outcome⟩
  | .error e => ⟨x.notes, .error e⟩

instance : Monad (Noted ω ε) where
  pure a := ⟨[], .ok a⟩
  bind := andThen

instance : MonadExceptOf ε (Noted ω ε) where
  throw e := ⟨[], .error e⟩
  tryCatch x f :=
    match x.outcome with
    | .ok a => ⟨x.notes, .ok a⟩
    | .error e => let y := f e; ⟨x.notes ++ y.notes, y.outcome⟩

@[simp] theorem outcome_pure (a : α) : (pure a : Noted ω ε α).outcome = .ok a := rfl

@[simp] theorem notes_pure (a : α) : (pure a : Noted ω ε α).notes = [] := rfl

/-- The outcome of a sequence does not depend on notes. -/
theorem outcome_bind (x : Noted ω ε α) (f : α → Noted ω ε β) :
    (x >>= f).outcome = x.outcome.bind fun a => (f a).outcome := by
  rcases x with ⟨notes, outcome⟩
  cases outcome <;> rfl

/-- What follows an error notes nothing. -/
theorem notes_bind_error (x : Noted ω ε α) (f : α → Noted ω ε β) {e : ε}
    (h : x.outcome = .error e) : (x >>= f).notes = x.notes := by
  rcases x with ⟨notes, outcome⟩
  cases h
  rfl

/-- The notes of a sequence follow one another. -/
theorem notes_bind_ok (x : Noted ω ε α) (f : α → Noted ω ε β) {a : α}
    (h : x.outcome = .ok a) : (x >>= f).notes = x.notes ++ (f a).notes := by
  rcases x with ⟨notes, outcome⟩
  cases h
  rfl

def note (w : ω) : Noted ω ε Unit := ⟨[w], .ok ()⟩

def noteIf (condition : Bool) (w : ω) : Noted ω ε Unit := ⟨if condition then [w] else [], .ok ()⟩

/-- The same computation with another account of its errors. -/
def mapError (f : ε → ε') (x : Noted ω ε α) : Noted ω ε' α := ⟨x.notes, x.outcome.mapError f⟩

@[simp] theorem outcome_ofExcept (x : Except ε α) : (ofExcept x : Noted ω ε α).outcome = x := rfl

@[simp] theorem outcome_mapError (f : ε → ε') (x : Noted ω ε α) :
    (x.mapError f).outcome = x.outcome.mapError f := rfl

end Noted
end EndpointRules
