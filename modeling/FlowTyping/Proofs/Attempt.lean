import FlowTyping.Attempt
import FlowTyping.Proofs.Except
import Mathlib.Logic.Relation

/-!
# Runs of attempts

An attempt goes by a relation if whatever it leaves behind, also where it fails, is reached by steps
of the relation.
-/
namespace FlowTyping.Attempt
variable {ε ε₁ σ α β : Type}

theorem answer_ok (value : α) : (answer (.ok value) : Attempt ε σ α) = pure value := rfl

theorem answer_map (f : α → β) (result : Except ε α) :
    (answer (f <$> result) : Attempt ε σ β) = f <$> answer result := by
  rw [map_eq_pure_bind]
  cases result <;> rfl

theorem run_bind_of_ok {attempt : Attempt ε σ α} {next : α → Attempt ε σ β} {state later : σ}
    {value : α} (hrun : attempt.run.run state = (.ok value, later)) :
    (attempt >>= next).run.run state = (next value).run.run later := by
  rw [ExceptT.run_bind, StateT.run_bind, hrun]
  rfl

theorem run_bind_of_error {attempt : Attempt ε σ α} {next : α → Attempt ε σ β} {state later : σ}
    {error : ε} (hrun : attempt.run.run state = (.error error, later)) :
    (attempt >>= next).run.run state = (.error error, later) := by
  rw [ExceptT.run_bind, StateT.run_bind, hrun]
  rfl

theorem run_throw (error : ε) (state : σ) :
    (throw error : Attempt ε σ α).run.run state = (.error error, state) := rfl

@[simp] theorem run_modify (change : σ → σ) (state : σ) :
    (modify change : Attempt ε σ PUnit).run.run state = (.ok (), change state) := rfl

theorem run_editEntry (missing : ε) (place : Nat) (edit : α → α) (entries : Array α) :
    (editEntry missing place edit).run.run entries =
      (if place < entries.size then .ok () else .error missing, entries.modify place edit) := by
  simp only [editEntry, ExceptT.run, StateT.run]
  split
  next => rfl
  next hle =>
    have hkeeps : entries.modify place edit = entries := by
      apply Array.ext_getElem?
      intro i
      rw [Array.getElem?_modify]
      split
      next hi => simp [← hi, Array.getElem?_eq_none (Nat.le_of_not_lt hle)]
      next => rfl
    rw [hkeeps]

theorem run_failing (tell : ε → ε₁) (attempt : Attempt ε σ α) (state : σ) :
    (attempt.failing tell).run.run state =
      ((attempt.run.run state).1.mapError tell, (attempt.run.run state).2) := by
  simp only [failing, ExceptT.run, StateT.run]
  split
  next hrun => rw [hrun]; rfl
  next hrun => rw [hrun]; rfl

theorem run_failing_eq_error_iff {tell : ε → ε₁} {attempt : Attempt ε σ α} {state later : σ}
    {error : ε₁} :
    (attempt.failing tell).run.run state = (.error error, later) ↔
      ∃ inner, attempt.run.run state = (.error inner, later) ∧ tell inner = error := by
  rw [run_failing]
  cases attempt.run.run state with
  | mk outcome last =>
    cases outcome with
    | error first =>
      constructor
      · intro hresult
        cases hresult
        exact ⟨first, rfl, rfl⟩
      · rintro ⟨_, hfirst, rfl⟩
        cases hfirst
        rfl
    | ok value =>
      constructor
      · intro hresult
        cases hresult
      · rintro ⟨_, hfirst, _⟩
        cases hfirst

theorem run_within {τ : Type} (part : τ → σ) (put : σ → τ → τ) (inner : Attempt ε σ α) (whole : τ) :
    (inner.within part put).run.run whole =
      ((inner.run.run (part whole)).1, put (inner.run.run (part whole)).2 whole) := rfl

theorem run_failing_eq_ok_iff {tell : ε → ε₁} {attempt : Attempt ε σ α} {state later : σ}
    {value : α} :
    (attempt.failing tell).run.run state = (.ok value, later) ↔
      attempt.run.run state = (.ok value, later) := by
  rw [run_failing]
  cases attempt.run.run state with
  | mk answer last =>
    cases answer <;> constructor <;> intro hrun <;> cases hrun <;> rfl

theorem run_reading_bind (read : σ → Except ε α) (next : α → Attempt ε σ β) (state : σ) :
    (reading read >>= next).run.run state = match read state with
      | .ok value => (next value).run.run state
      | .error error => (.error error, state) := by
  cases hread : read state with
  | error error => exact run_bind_of_error (by rw [run_reading, hread])
  | ok value => exact run_bind_of_ok (by rw [run_reading, hread])

theorem run_throw_bind (error : ε) (next : α → Attempt ε σ β) (state : σ) :
    (throw error >>= next).run.run state = (.error error, state) :=
  run_bind_of_error (run_throw error state)

theorem run_bind_eq_ok_iff {attempt : Attempt ε σ α} {next : α → Attempt ε σ β} {state later : σ}
    {result : β} :
    (attempt >>= next).run.run state = (.ok result, later) ↔
      ∃ value between, attempt.run.run state = (.ok value, between) ∧
        (next value).run.run between = (.ok result, later) := by
  cases hrun : attempt.run.run state with
  | mk outcome between =>
    cases outcome with
    | error error =>
      rw [run_bind_of_error hrun]
      constructor
      · intro hresult
        cases hresult
      · rintro ⟨_, _, hvalue, _⟩
        cases hvalue
    | ok value =>
      rw [run_bind_of_ok hrun]
      constructor
      · intro hresult
        exact ⟨value, between, rfl, hresult⟩
      · rintro ⟨_, _, hvalue, hresult⟩
        cases hvalue
        exact hresult

/-- A sequence fails where its first part does, or goes on from there and fails. -/
theorem run_bind_eq_error_iff {attempt : Attempt ε σ α} {next : α → Attempt ε σ β}
    {state later : σ} {error : ε} :
    (attempt >>= next).run.run state = (.error error, later) ↔
      attempt.run.run state = (.error error, later) ∨
        ∃ value between, attempt.run.run state = (.ok value, between) ∧
          (next value).run.run between = (.error error, later) := by
  cases hrun : attempt.run.run state with
  | mk outcome between =>
    cases outcome with
    | error first =>
      rw [run_bind_of_error hrun]
      constructor
      · intro hresult
        cases hresult
        exact .inl rfl
      · rintro (hfirst | ⟨_, _, hvalue, _⟩)
        · cases hfirst
          rfl
        · cases hvalue
    | ok value =>
      rw [run_bind_of_ok hrun]
      constructor
      · intro hresult
        exact .inr ⟨value, between, rfl, hresult⟩
      · rintro (hfirst | ⟨_, _, hvalue, hresult⟩)
        · cases hfirst
        · cases hvalue
          exact hresult

def Keeps (attempt : Attempt ε σ α) : Prop :=
  ∀ state, (attempt.run.run state).2 = state

theorem keeps_pure (value : α) : Keeps (pure value : Attempt ε σ α) := fun _ => rfl

theorem keeps_reading (read : σ → Except ε α) : Keeps (reading read) := fun _ => rfl

theorem keeps_answer (result : Except ε α) : Keeps (answer result : Attempt ε σ α) := fun _ => rfl

/-- What follows and changes nothing leaves the state to what was before. -/
theorem run_bind_snd {attempt : Attempt ε σ α} {next : α → Attempt ε σ β}
    (hnext : ∀ value, Keeps (next value)) (state : σ) :
    ((attempt >>= next).run.run state).2 = (attempt.run.run state).2 := by
  cases hrun : attempt.run.run state with
  | mk outcome later =>
    cases outcome with
    | error error => rw [run_bind_of_error hrun]
    | ok value => rw [run_bind_of_ok hrun, hnext]

theorem Keeps.bind {attempt : Attempt ε σ α} {next : α → Attempt ε σ β} (hfirst : Keeps attempt)
    (hnext : ∀ value, Keeps (next value)) : Keeps (attempt >>= next) :=
  fun state => (run_bind_snd hnext state).trans (hfirst state)

theorem run_answer_eq_ok_iff {answered : Except ε α} {state later : σ} {value : α} :
    (answer answered : Attempt ε σ α).run.run state = (.ok value, later) ↔
      answered = .ok value ∧ state = later := by
  rw [run_answer]
  constructor
  · intro h
    cases h
    exact ⟨rfl, rfl⟩
  · rintro ⟨rfl, rfl⟩
    rfl

theorem run_pure_eq_ok_iff {state later : σ} {value result : α} :
    (pure value : Attempt ε σ α).run.run state = (.ok result, later) ↔
      value = result ∧ state = later := by
  rw [← answer_ok, run_answer_eq_ok_iff, Except.ok.injEq]

theorem run_map (f : α → β) (attempt : Attempt ε σ α) (state : σ) :
    (f <$> attempt).run.run state =
      ((attempt.run.run state).1.map f, (attempt.run.run state).2) := by
  rw [map_eq_pure_bind]
  cases hrun : attempt.run.run state with
  | mk result later =>
    cases result with
    | error error => rw [run_bind_of_error hrun]; rfl
    | ok value => rw [run_bind_of_ok hrun]; rfl

theorem run_map_snd (f : α → β) (attempt : Attempt ε σ α) (state : σ) :
    ((f <$> attempt).run.run state).2 = (attempt.run.run state).2 := by
  rw [run_map]

theorem run_map_eq_ok_iff {f : α → β} {attempt : Attempt ε σ α} {state later : σ} {result : β} :
    (f <$> attempt).run.run state = (.ok result, later) ↔
      ∃ value, attempt.run.run state = (.ok value, later) ∧ f value = result := by
  rw [map_eq_pure_bind, run_bind_eq_ok_iff]
  constructor
  · rintro ⟨value, between, hrun, hresult⟩
    obtain ⟨hvalue, rfl⟩ := run_pure_eq_ok_iff.mp hresult
    exact ⟨value, hrun, hvalue⟩
  · rintro ⟨value, hrun, hvalue⟩
    exact ⟨value, later, hrun, run_pure_eq_ok_iff.mpr ⟨hvalue, rfl⟩⟩

theorem run_map_eq_error_iff {f : α → β} {attempt : Attempt ε σ α} {state later : σ} {error : ε} :
    (f <$> attempt).run.run state = (.error error, later) ↔
      attempt.run.run state = (.error error, later) := by
  rw [run_map]
  cases attempt.run.run state with
  | mk answer last =>
    cases answer <;> constructor <;> intro hrun <;> cases hrun <;> rfl

/-- What an attempt makes of a state if it has an answer. -/
def outcome (attempt : Attempt ε σ α) (state : σ) : Except ε (α × σ) :=
  match attempt.run.run state with
  | (.ok value, later) => .ok (value, later)
  | (.error error, _) => .error error

theorem outcome_eq_ok_iff {attempt : Attempt ε σ α} {state later : σ} {value : α} :
    attempt.outcome state = .ok (value, later) ↔
      attempt.run.run state = (.ok value, later) := by
  unfold outcome
  split
  next hrun => rw [hrun]; constructor <;> (intro heq; cases heq; rfl)
  next hrun => rw [hrun]; constructor <;> (intro heq; cases heq)

/-- Whatever the attempt leaves behind is reached by steps of a relation. -/
def GoesBy (step : σ → σ → Prop) (attempt : Attempt ε σ α) : Prop :=
  ∀ state, Relation.ReflTransGen step state (attempt.run.run state).2

variable {step : σ → σ → Prop}

theorem goesBy_pure (value : α) : GoesBy step (pure value : Attempt ε σ α) :=
  fun _ => .refl

theorem goesBy_reading (read : σ → Except ε α) : GoesBy step (reading read) :=
  fun _ => .refl

theorem goesBy_always {make : σ → α × σ}
    (hmake : ∀ state, Relation.ReflTransGen step state (make state).2) :
    GoesBy step (always make : Attempt ε σ α) :=
  hmake

theorem Keeps.goesBy {attempt : Attempt ε σ α} (hkeeps : Keeps attempt) : GoesBy step attempt := by
  intro state
  rw [hkeeps]

theorem GoesBy.bind {attempt : Attempt ε σ α} {next : α → Attempt ε σ β}
    (hfirst : GoesBy step attempt) (hnext : ∀ value, GoesBy step (next value)) :
    GoesBy step (attempt >>= next) := by
  intro state
  have hstart := hfirst state
  cases hrun : attempt.run.run state with
  | mk result later =>
    rw [hrun] at hstart
    cases result with
    | error error =>
      rw [run_bind_of_error hrun]
      exact hstart
    | ok value =>
      rw [run_bind_of_ok hrun]
      exact hstart.trans (hnext value later)

theorem GoesBy.map {attempt : Attempt ε σ α} (f : α → β) (hgoes : GoesBy step attempt) :
    GoesBy step (f <$> attempt) := by
  rw [map_eq_pure_bind]
  exact hgoes.bind fun value => goesBy_pure (f value)

theorem GoesBy.failing {attempt : Attempt ε σ α} (tell : ε → ε₁) (hgoes : GoesBy step attempt) :
    GoesBy step (attempt.failing tell) := by
  intro state
  rw [run_failing]
  exact hgoes state

theorem goesBy_foldlM {next : β → α → Attempt ε σ β}
    (hnext : ∀ made value, GoesBy step (next made value)) (values : List α) (made : β) :
    GoesBy step (values.foldlM next made) := by
  induction values generalizing made with
  | nil => exact goesBy_pure made
  | cons value values ih =>
    rw [List.foldlM_cons]
    exact (hnext made value).bind ih

/-! ## Failures -/

def Succeeds (attempt : Attempt ε σ α) : Prop :=
  ∀ state, ∃ value later, attempt.run.run state = (.ok value, later)

/-- Where the attempt fails, what it leaves is in a relation to what it found. -/
def FailsBy (kept : σ → σ → Prop) (attempt : Attempt ε σ α) : Prop :=
  ∀ state error later, attempt.run.run state = (.error error, later) → kept state later

/-- Where the attempt fails, it changes nothing. -/
abbrev Atomic (attempt : Attempt ε σ α) : Prop := FailsBy (fun state later => later = state) attempt

/-- What holds of a state, and of all that the attempt makes of it where it has an answer, holds of
what the attempt leaves. -/
theorem Atomic.run_induction {attempt : Attempt ε σ α} (hatomic : Atomic attempt) {state : σ}
    {motive : σ → Prop} (hkept : motive state)
    (hmade : ∀ value later, attempt.run.run state = (.ok value, later) → motive later) :
    motive (attempt.run.run state).2 := by
  cases hrun : attempt.run.run state with
  | mk outcome later =>
    cases outcome with
    | ok value => exact hmade value later hrun
    | error error =>
      rw [hatomic state error later hrun]
      exact hkept

def Answers (good : α → Prop) (attempt : Attempt ε σ α) : Prop :=
  ∀ state value later, attempt.run.run state = (.ok value, later) → good value

theorem answers_pure {good : α → Prop} {value : α} (hgood : good value) :
    Answers good (pure value : Attempt ε σ α) := by
  intro state result later hrun
  obtain ⟨rfl, _⟩ := run_pure_eq_ok_iff.mp hrun
  exact hgood

theorem answers_reading {good : α → Prop} {read : σ → Except ε α}
    (hgood : ∀ state value, read state = .ok value → good value) : Answers good (reading read) := by
  intro state value later hrun
  rw [run_reading] at hrun
  exact hgood state value (Prod.mk.inj hrun).1

theorem answers_bind {good : β → Prop} (attempt : Attempt ε σ α) {next : α → Attempt ε σ β}
    (hnext : ∀ value, Answers good (next value)) : Answers good (attempt >>= next) := by
  intro state result later hrun
  obtain ⟨value, between, _, hrun⟩ := run_bind_eq_ok_iff.mp hrun
  exact hnext value between result later hrun

theorem answers_map {good : β → Prop} {f : α → β} (hgood : ∀ value, good (f value))
    (attempt : Attempt ε σ α) : Answers good (f <$> attempt) := by
  rw [map_eq_pure_bind]
  exact answers_bind attempt fun value => answers_pure (hgood value)

variable {kept : σ → σ → Prop}

theorem succeeds_pure (value : α) : Succeeds (pure value : Attempt ε σ α) :=
  fun state => ⟨value, state, rfl⟩

theorem succeeds_get : Succeeds (get : Attempt ε σ σ) :=
  fun state => ⟨state, state, rfl⟩

theorem succeeds_always (make : σ → α × σ) : Succeeds (always make : Attempt ε σ α) :=
  fun state => ⟨_, _, run_always make state⟩

theorem Succeeds.bind {attempt : Attempt ε σ α} {next : α → Attempt ε σ β}
    (hfirst : Succeeds attempt) (hnext : ∀ value, Succeeds (next value)) :
    Succeeds (attempt >>= next) := by
  intro state
  obtain ⟨value, between, hrun⟩ := hfirst state
  rw [run_bind_of_ok hrun]
  exact hnext value between

theorem succeeds_foldlM {next : β → α → Attempt ε σ β}
    (hnext : ∀ made value, Succeeds (next made value)) (values : List α) (made : β) :
    Succeeds (values.foldlM next made) := by
  induction values generalizing made with
  | nil => exact succeeds_pure made
  | cons value values ih =>
    rw [List.foldlM_cons]
    exact (hnext made value).bind ih

theorem Succeeds.within {τ : Type} {inner : Attempt ε σ α} (hinner : Succeeds inner)
    (part : τ → σ) (put : σ → τ → τ) : Succeeds (inner.within part put) := by
  intro whole
  obtain ⟨value, later, hrun⟩ := hinner (part whole)
  exact ⟨value, put later whole, by rw [run_within, hrun]⟩

theorem FailsBy.mono {kept' : σ → σ → Prop} {attempt : Attempt ε σ α}
    (hfails : FailsBy kept attempt) (hkept : ∀ state later, kept state later → kept' state later) :
    FailsBy kept' attempt :=
  fun state error later hrun => hkept state later (hfails state error later hrun)

theorem Succeeds.ne_error {attempt : Attempt ε σ α} (hsucceeds : Succeeds attempt) {state later : σ}
    {error : ε} : attempt.run.run state ≠ (.error error, later) := by
  obtain ⟨value, later', hok⟩ := hsucceeds state
  rw [hok]
  intro hrun
  cases hrun

theorem Succeeds.failsBy {attempt : Attempt ε σ α} (hsucceeds : Succeeds attempt) :
    FailsBy kept attempt :=
  fun _ _ _ hrun => absurd hrun hsucceeds.ne_error

theorem atomic_reading (read : σ → Except ε α) : Atomic (reading read) := by
  intro state error later hrun
  rw [run_reading] at hrun
  exact (Prod.mk.inj hrun).2.symm

theorem editEntry_atomic (missing : ε) (place : Nat) (edit : α → α) :
    Atomic (editEntry missing place edit) := by
  intro entries error later hrun
  simp only [editEntry, ExceptT.run, StateT.run] at hrun
  split at hrun <;> cases hrun
  rfl

theorem failsBy_bind {attempt : Attempt ε σ α} {next : α → Attempt ε σ β}
    (hfirst : FailsBy kept attempt)
    (hnext : ∀ {state value between}, attempt.run.run state = (.ok value, between) →
      ∀ {error later}, (next value).run.run between = (.error error, later) → kept state later) :
    FailsBy kept (attempt >>= next) := by
  intro state error later hrun
  rcases run_bind_eq_error_iff.mp hrun with hrun | ⟨value, between, hattempt, hrun⟩
  · exact hfirst state error later hrun
  · exact hnext hattempt hrun

theorem Keeps.atomic_bind {attempt : Attempt ε σ α} {next : α → Attempt ε σ β}
    (hkeeps : Keeps attempt) (hnext : ∀ value, Atomic (next value)) : Atomic (attempt >>= next) := by
  intro state error later hrun
  rcases run_bind_eq_error_iff.mp hrun with hrun | ⟨value, between, hattempt, hrun⟩
  · exact (congrArg Prod.snd hrun).symm.trans (hkeeps state)
  · obtain rfl : state = between := (hkeeps state).symm.trans (congrArg Prod.snd hattempt)
    exact hnext value state error later hrun

theorem FailsBy.bind {attempt : Attempt ε σ α} {next : α → Attempt ε σ β}
    (hfirst : FailsBy kept attempt) (hnext : ∀ value, Succeeds (next value)) :
    FailsBy kept (attempt >>= next) := by
  refine failsBy_bind hfirst ?_
  intro state value between _ error later hrun
  exact absurd hrun (hnext value).ne_error

theorem FailsBy.map {attempt : Attempt ε σ α} (f : α → β) (hfails : FailsBy kept attempt) :
    FailsBy kept (f <$> attempt) := by
  rw [map_eq_pure_bind]
  exact hfails.bind fun value => succeeds_pure (f value)

theorem FailsBy.failing {attempt : Attempt ε σ α} (tell : ε → ε₁) (hfails : FailsBy kept attempt) :
    FailsBy kept (attempt.failing tell) := by
  intro state error later hrun
  obtain ⟨inner, hrun, _⟩ := run_failing_eq_error_iff.mp hrun
  exact hfails state inner later hrun

theorem FailsBy.within {τ : Type} {kept' : τ → τ → Prop} {inner : Attempt ε σ α}
    (hinner : FailsBy kept inner) (part : τ → σ) (put : σ → τ → τ)
    (hput : ∀ whole changed, kept (part whole) changed → kept' whole (put changed whole)) :
    FailsBy kept' (inner.within part put) := by
  intro whole error later hrun
  rw [run_within] at hrun
  obtain ⟨hfault, rfl⟩ := Prod.mk.inj hrun
  exact hput whole _ (hinner (part whole) error _ (Prod.ext hfault rfl))

theorem Atomic.within {τ : Type} {inner : Attempt ε σ α} (hinner : Atomic inner) {part : τ → σ}
    {put : σ → τ → τ} (hput : ∀ whole, put (part whole) whole = whole) :
    Atomic (inner.within part put) := by
  refine FailsBy.within hinner part put fun whole changed hsame => ?_
  rw [hsame, hput]

def Raises (kind : ε → Prop) (attempt : Attempt ε σ α) : Prop :=
  ∀ state error later, attempt.run.run state = (.error error, later) → kind error

variable {kind : ε → Prop}

theorem Succeeds.raises {attempt : Attempt ε σ α} (hsucceeds : Succeeds attempt) :
    Raises kind attempt :=
  fun _ _ _ hrun => absurd hrun hsucceeds.ne_error

theorem raises_answer {answered : Except ε α} (hraises : Except.Raises kind answered) :
    Raises kind (answer answered : Attempt ε σ α) := by
  intro state error later hrun
  rw [run_answer] at hrun
  exact hraises error (Prod.mk.inj hrun).1

/-- Errors that are told in other terms are of any kind that all of these are of. -/
theorem raises_failing {tell : ε₁ → ε} (hkind : ∀ error, kind (tell error))
    (attempt : Attempt ε₁ σ α) : Raises kind (attempt.failing tell) := by
  intro state error later hrun
  obtain ⟨inner, _, rfl⟩ := run_failing_eq_error_iff.mp hrun
  exact hkind inner

theorem Raises.bind {attempt : Attempt ε σ α} {next : α → Attempt ε σ β}
    (hfirst : Raises kind attempt) (hnext : ∀ value, Raises kind (next value)) :
    Raises kind (attempt >>= next) := by
  intro state error later hrun
  rcases run_bind_eq_error_iff.mp hrun with hrun | ⟨value, between, _, hrun⟩
  · exact hfirst state error later hrun
  · exact hnext value between error later hrun

/-- A fold that fails does so at one of the values, after those before it were dealt with. -/
theorem foldlM_error {next : β → α → Attempt ε σ β} {values : List α} {made : β} {state later : σ}
    {error : ε} (hrun : (values.foldlM next made).run.run state = (.error error, later)) :
    ∃ n value reached between, values[n]? = some value ∧
      ((values.take n).foldlM next made).run.run state = (.ok reached, between) ∧
      (next reached value).run.run between = (.error error, later) := by
  induction values generalizing made state with
  | nil => cases hrun
  | cons value values ih =>
    rw [List.foldlM_cons] at hrun
    rcases run_bind_eq_error_iff.mp hrun with hfirst | ⟨reached, between, hfirst, hrun⟩
    · exact ⟨0, value, made, state, rfl, rfl, hfirst⟩
    · obtain ⟨n, stop, reached', between', hstop, hbefore, hlast⟩ := ih hrun
      refine ⟨n + 1, stop, reached', between', hstop, ?_, hlast⟩
      rw [List.take_succ_cons, List.foldlM_cons, run_bind_of_ok hfirst, hbefore]

/-- A count that fails does so at a number below its end. -/
theorem foldlM_range_error {next : β → Nat → Attempt ε σ β} {count : Nat} {made : β}
    {state later : σ} {error : ε}
    (hrun : ((List.range count).foldlM next made).run.run state = (.error error, later)) :
    ∃ n reached between, n < count ∧
      ((List.range n).foldlM next made).run.run state = (.ok reached, between) ∧
      (next reached n).run.run between = (.error error, later) := by
  obtain ⟨n, value, reached, between, hvalue, hbefore, hlast⟩ := foldlM_error hrun
  obtain ⟨hn, hsame⟩ := List.getElem?_eq_some_iff.mp hvalue
  rw [List.getElem_range] at hsame
  rw [List.length_range] at hn
  rw [List.take_range, Nat.min_eq_left (Nat.le_of_lt hn)] at hbefore
  rw [← hsame] at hlast
  exact ⟨n, reached, between, hn, hbefore, hlast⟩

end FlowTyping.Attempt
