import FlowTyping.Flow.Store

/-!
# Runs of flow steps

Steps are tried in turn on a state beside a lattice. A step that fails leaves the state alone; the
lattice keeps what was built before the failure.
-/
namespace FlowTyping
variable {Λ σ τ : Type}

def tryStep (take : σ → FlowStep → Attempt Fault Λ σ) (state : σ × Λ) (step : FlowStep) : σ × Λ :=
  match (take state.1 step).run.run state.2 with
  | (.ok next, types) => (next, types)
  | (.error _, types) => (state.1, types)

def trySteps (take : σ → FlowStep → Attempt Fault Λ σ) (state : σ × Λ) (steps : List FlowStep) :
    σ × Λ :=
  steps.foldl (tryStep take) state

/-- A view of the state that every single step respects is respected by a whole run. -/
theorem trySteps_view {take : σ → FlowStep → Attempt Fault Λ σ}
    {take' : τ → FlowStep → Attempt Fault Λ τ} (view : σ → τ)
    (hview : ∀ state step, view <$> take state step = take' (view state) step)
    (steps : List FlowStep) (state : σ × Λ) :
    trySteps take' (view state.1, state.2) steps =
      (view (trySteps take state steps).1, (trySteps take state steps).2) := by
  induction steps generalizing state with
  | nil => rfl
  | cons step steps ih =>
    have hstep : tryStep take' (view state.1, state.2) step =
        (view (tryStep take state step).1, (tryStep take state step).2) := by
      simp only [tryStep, ← hview, ExceptT.run_map, StateT.run_map]
      rcases (take state.1 step).run.run state.2 with ⟨_ | _, _⟩ <;> rfl
    rw [trySteps, List.foldl_cons, hstep]
    exact ih (tryStep take state step)

/-- A property that every successful step keeps holds after a whole run. -/
theorem trySteps_invariant {take : σ → FlowStep → Attempt Fault Λ σ} {inv : σ → Prop}
    (hkeep : ∀ state step types next later, inv state →
      (take state step).run.run types = (.ok next, later) → inv next)
    (steps : List FlowStep) (state : σ × Λ) (hinv : inv state.1) :
    inv (trySteps take state steps).1 := by
  induction steps generalizing state with
  | nil => exact hinv
  | cons step steps ih =>
    apply ih (tryStep take state step)
    unfold tryStep
    split
    next next later hrun => exact hkeep state.1 step state.2 next later hinv hrun
    next => exact hinv

namespace FlowStore
variable [TypeLattice Λ]

theorem find_eq_ok_iff {store : FlowStore} {key : String} {flow : Flow} :
    store.find key = .ok flow ↔ store.flows[key]? = some flow := by
  unfold FlowStore.find
  split <;> simp_all

def advance (forest : Forest) (store : FlowStore) (step : FlowStep) : Attempt Fault Λ FlowStore :=
  Prod.snd <$> store.perform forest step

/-- The store and the lattice after steps that are tried in turn. -/
def after (forest : Forest) (state : FlowStore × Λ) (steps : List FlowStep) : FlowStore × Λ :=
  trySteps (advance forest) state steps

end FlowStore
end FlowTyping
