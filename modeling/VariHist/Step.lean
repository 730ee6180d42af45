import VariHist.Fault

/-!
# Steps

A step works on a state and succeeds or fails.  A failing step leaves a state behind as well, with
whatever it did before it failed; an attempt at a change that cannot be made leaves the state as it
was.
-/

namespace VariHist

/-- A step on a state of type `σ` with an answer of type `β`. -/
abbrev Step (σ β : Type) : Type :=
  EStateM Error σ β

namespace Step

variable {σ τ β : Type}

/-- An answer that is worked out from the state, or a fault. -/
def ask (f : σ → Except Error β) : Step σ β := fun s =>
  match f s with
  | .ok b => .ok b s
  | .error e => .error e s

/-- A change of the state that is made as a whole or not at all. -/
def attempt (f : σ → Except Error σ) : Step σ Unit := fun s =>
  match f s with
  | .ok s' => .ok () s'
  | .error e => .error e s

/-- A step on a part of the state. -/
def within (get : σ → τ) (set : τ → σ → σ) (step : Step τ β) : Step σ β := fun s =>
  match step (get s) with
  | .ok b t => .ok b (set t s)
  | .error e t => .error e (set t s)

/-- The state after a step, whether it succeeds or not. -/
def stateAfter (step : Step σ β) (s : σ) : σ :=
  match step s with
  | .ok _ s' => s'
  | .error _ s' => s'

/-- The answer of a step, the state left out. -/
def answer (step : Step σ β) (s : σ) : Except Error β :=
  match step s with
  | .ok b _ => .ok b
  | .error e _ => .error e

end Step

end VariHist
