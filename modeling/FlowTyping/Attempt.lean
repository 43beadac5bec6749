/-!
# Attempts

Computations on a state that may fail. What was changed before a failure stays changed.
-/
namespace FlowTyping

/-- Computations that keep their changes to the state when they fail. -/
abbrev Attempt (ε σ : Type) := ExceptT ε (StateM σ)

namespace Attempt
variable {ε ε₁ σ τ α : Type}

def answer (result : Except ε α) : Attempt ε σ α := fun state => (result, state)

def reading (read : σ → Except ε α) : Attempt ε σ α := fun state => (read state, state)

/-- A change that cannot fail. -/
def always (step : σ → α × σ) : Attempt ε σ α := fun state =>
  let (value, changed) := step state
  (.ok value, changed)

/-- Changes the entry at a place of a table in that place, if there is one. -/
def editEntry (missing : ε) (place : Nat) (edit : α → α) : Attempt ε (Array α) Unit :=
  fun entries =>
  if place < entries.size then (.ok (), entries.modify place edit) else (.error missing, entries)

/-- A computation whose failures are told in other terms. -/
def failing (tell : ε → ε₁) (inner : Attempt ε σ α) : Attempt ε₁ σ α := fun state =>
  match inner.run state with
  | (.ok value, changed) => (.ok value, changed)
  | (.error error, changed) => (.error (tell error), changed)

/-- A computation on a part of a larger state. -/
def within (part : τ → σ) (put : σ → τ → τ) (inner : Attempt ε σ α) : Attempt ε τ α := fun whole =>
  let (result, changed) := inner.run (part whole)
  (result, put changed whole)

@[simp] theorem run_answer (result : Except ε α) (state : σ) :
    (answer result : Attempt ε σ α).run.run state = (result, state) := rfl

@[simp] theorem run_reading (read : σ → Except ε α) (state : σ) :
    (reading read).run.run state = (read state, state) := rfl

@[simp] theorem run_always (step : σ → α × σ) (state : σ) :
    (always step : Attempt ε σ α).run.run state = (.ok (step state).1, (step state).2) := rfl

end Attempt
end FlowTyping
