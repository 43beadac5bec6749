import FlowTyping.Proofs.Flow.Uniting
import FlowTyping.Proofs.Name.Growth
import FlowTyping.Proofs.Session

/-!
# Requests that fail

A request that fails leaves the session as it was, but for its names and, if it is a join, some
unions. A series fails at one of its elements: what the elements before it did stays, and the one
that fails leaves the session as every single request does.
-/
namespace FlowTyping
open Attempt

/-! ## Names of requests -/

/-- The spellings that an edit enters before it is tried. -/
def Edit.spellings : Edit → List String
  | .intern ref | .declare _ ref _ | .tryDeclare _ ref _ => ref.spellings
  | .addScope _ _ _ reserved _ => reserved.flatMap NameRef.spellings
  | .addBottom _ | .setRootType _ _ | .setType _ _ => []

namespace Session

def Query.spellings : Query → List String
  | .ownVariable _ ref | .resolve _ ref | .declaredType _ ref | .eventualScope _ ref
  | .sameBinding _ _ ref => ref.spellings
  | .resolveAll _ refs => refs.flatMap NameRef.spellings
  | _ => []

def FlowQuery.spellings : FlowQuery → List String
  | .slot _ ref => ref.spellings
  | .slots _ refs => refs.flatMap NameRef.spellings
  | _ => []

def Request.spellings : Request → List String
  | .edit performed => performed.spellings
  | .declareNumbered _ stem count _ => (List.range count).map fun i => stem ++ toString i
  | .ask query => query.spellings
  | .refine _ ref _ => ref.spellings
  | .chain _ _ times links => (List.range times).flatMap fun round =>
    links.flatMap fun link => (link.map fun slot => (slot.1.inRound round).spellings).getD []
  | .compare query => query.spellings
  | .nest _ _ _ _ | .types _ | .flow _ | .parent _ _ | .drop _ => []

def Request.IsJoin : Request → Prop
  | .flow taken => taken.IsJoin
  | _ => False

/-- The requests that are served element by element. -/
def Request.IsSeries : Request → Prop
  | .nest _ _ _ _ | .declareNumbered _ _ _ _ => True
  | _ => False

/-- A fault, or the refusal of a request that reports build errors. -/
def Failed : Except Fault Answer → Prop
  | .error _ | .ok (.refused _) => True
  | .ok _ => False

/-- The session is as before, but for names of a request and the unions of a join. -/
structure Intact (request : Request) (session later : Session) : Prop where
  forest : ∃ entered, entered <+: request.spellings ∧
    later.forest = { session.forest with names := session.forest.names.entering entered }
  types : ∃ unions : List (List TypeId), (unions ≠ [] → request.IsJoin) ∧
    later.types = session.types.uniting unions
  store : later.store = session.store

/-- Where a request fails: a series at one of its elements, in the state that the elements before it
have led to, and any other request at once. -/
inductive FailsAt (session : Session) : Request → Session → Request → Prop where
  | single {request : Request} (hsingle : ¬request.IsSeries) :
    FailsAt session request session request
  | nest {parent inner : ScopeId} {root : NodeId} {kind : Scope.Kind} {count n : Nat}
    {before : Session} (hn : n < count)
    (hbefore : session.step (.nest parent root kind n) = (.ok (.handle inner), before)) :
    FailsAt session (.nest parent root kind count) before
      (.edit (.addScope inner (root.after n) kind [] none))
  | declareNumbered {scope : ScopeId} {stem : String} {count n : Nat} {last : Option VarId}
    {details : Variable.Details} {before : Session} (hn : n < count)
    (hbefore : session.step (.declareNumbered scope stem n details) =
      (.ok (.optional .handle last), before)) :
    FailsAt session (.declareNumbered scope stem count details) before
      (.edit (.declare scope (.spelled (stem ++ toString n)) details))

end Session

namespace Forest

def interning (forest : Forest) (spellings : List String) : Forest :=
  { forest with names := forest.names.entering spellings }

/-! ## Edits -/

variable {forest later : Forest} {edit : Edit}

theorem run_intern_eq (ref : NameRef) (forest : Forest) :
    (intern ref).run.run forest =
      (.ok (forest.names.name ref).1, forest.interning ref.spellings) := by
  rw [run_intern, NameTable.name_snd]
  rfl

theorem run_internAll_eq (refs : List NameRef) (forest : Forest) :
    (internAll refs).run.run forest =
      (.ok (forest.names.names refs).1, forest.interning (refs.flatMap NameRef.spellings)) := by
  rw [run_internAll, NameTable.names_snd]
  rfl

/-- What changes nothing where it fails leaves the names that were interned before. -/
theorem failsBy_interning {α β : Type} {spellings : List String} {first : Attempt Fault Forest α}
    {next : α → Attempt Fault Forest β}
    (hfirst : ∀ forest, ∃ value, first.run.run forest = (.ok value, forest.interning spellings))
    (hnext : ∀ value, Atomic (next value)) :
    FailsBy (fun forest later => later = forest.interning spellings) (first >>= next) := by
  intro forest fault later hrun
  obtain ⟨value, hvalue⟩ := hfirst forest
  rw [run_bind_of_ok hvalue] at hrun
  exact hnext value _ fault later hrun

/-- A declaration that does not go through has interned its name and changed nothing else. -/
theorem eq_interning_of_declaration (hsized : forest.Sized) {id : ScopeId} {ref : NameRef}
    {details : Variable.Details} {outcome : Except Fault Edit.Outcome}
    (hedit : edit = .declare id ref details ∨ edit = .tryDeclare id ref details)
    (hrun : (perform edit).run.run forest = (outcome, later))
    (hnot : ∀ var, outcome ≠ .ok (.declared var)) : later = forest.interning edit.spellings := by
  have hspellings : edit.spellings = ref.spellings := by
    rcases hedit with rfl | rfl <;> rfl
  rcases run_declaration hsized hedit with ⟨within, _, hdeclared⟩ | ⟨_, answer, hkept, _⟩
  · obtain ⟨rfl, _⟩ := Prod.mk.inj (hrun.symm.trans hdeclared)
    exact absurd rfl (hnot _)
  · obtain ⟨_, rfl⟩ := Prod.mk.inj (hrun.symm.trans hkept)
    rw [hspellings, NameTable.name_snd]
    rfl

/-- An edit that fails has interned its names and changed nothing else. -/
theorem perform_failed (hsized : forest.Sized) {fault : Fault}
    (hrun : (perform edit).run.run forest = (.error fault, later)) :
    later = forest.interning edit.spellings := by
  cases edit with
  | intern ref => exact absurd (run_map_eq_error_iff.mp hrun) (succeeds_always _).ne_error
  | addBottom root =>
    rw [perform, run_map_eq_error_iff, run_addingBottom] at hrun
    split at hrun
    next => cases hrun
    next => exact (Prod.mk.inj hrun).2.symm
  | addScope parent root kind reserved module =>
    refine failsBy_interning (fun forest => ⟨_, run_internAll_eq reserved forest⟩) ?_
      forest fault later hrun
    exact fun names => (adding_atomic parent root kind names module).map _
  | declare id ref details => exact eq_interning_of_declaration hsized (.inl rfl) hrun (by simp)
  | tryDeclare id ref details => exact eq_interning_of_declaration hsized (.inr rfl) hrun (by simp)
  | setRootType id type =>
    exact ((editScope_atomic id _).bind fun _ => succeeds_pure _) forest fault later hrun
  | setType id type =>
    refine failsBy_bind (editVar_atomic id _) ?_ forest fault later hrun
    -- A variable whose type was changed can be read afterwards.
    intro forest _ between hedit fault later hrun
    rw [run_editVar] at hedit
    split at hedit
    next hlt =>
      obtain ⟨_, rfl⟩ := Prod.mk.inj hedit
      rw [run_map_eq_error_iff, run_reading] at hrun
      simp only [Forest.var, Array.getElem?_modify, Array.getElem?_eq_getElem hlt, if_true,
        Option.map_some] at hrun
      cases hrun
    next => cases (Prod.mk.inj hedit).1

/-- Only the edit that reports build errors is ever refused. -/
theorem perform_refused (hsized : forest.Sized) {error : BuildError}
    (hrun : (perform edit).run.run forest = (.ok (.refused error), later)) :
    later = forest.interning edit.spellings := by
  have hother : ∀ {attempt : Attempt Fault Forest Edit.Outcome},
      Answers (∀ error, · ≠ .refused error) attempt →
        attempt.run.run forest ≠ (.ok (.refused error), later) :=
    fun hanswers hrun => hanswers forest _ later hrun error rfl
  cases edit with
  | tryDeclare id ref details => exact eq_interning_of_declaration hsized (.inr rfl) hrun (by simp)
  | intern ref => exact absurd hrun (hother (answers_map (by simp) _))
  | addBottom root => exact absurd hrun (hother (answers_map (by simp) _))
  | addScope parent root kind reserved module =>
    exact absurd hrun (hother (answers_bind _ fun _ => answers_map (by simp) _))
  | declare id ref details => exact absurd hrun (hother (answers_map (by simp) _))
  | setRootType id type =>
    exact absurd hrun (hother (answers_bind _ fun _ => answers_pure (by simp)))
  | setType id type =>
    exact absurd hrun (hother (answers_bind _ fun _ => answers_map (by simp) _))

end Forest

namespace Session
variable {session later : Session} {request : Request}

def interning (session : Session) (spellings : List String) : Session :=
  { session with forest := session.forest.interning spellings }

theorem intact_interning (request : Request) (session : Session) :
    Intact request session (session.interning request.spellings) where
  forest := ⟨request.spellings, List.prefix_refl _, rfl⟩
  types := ⟨[], fun hne => absurd rfl hne, session.types.uniting_nil.symm⟩
  store := rfl

theorem intact_self (request : Request) (session : Session) : Intact request session session where
  forest := ⟨[], List.nil_prefix, rfl⟩
  types := ⟨[], fun hne => absurd rfl hne, session.types.uniting_nil.symm⟩
  store := rfl

theorem Intact.scopes (hintact : Intact request session later) :
    later.forest.scopes = session.forest.scopes := by
  obtain ⟨_, _, hforest⟩ := hintact.forest
  rw [hforest]

theorem Intact.vars (hintact : Intact request session later) :
    later.forest.vars = session.forest.vars := by
  obtain ⟨_, _, hforest⟩ := hintact.forest
  rw [hforest]

theorem Intact.forest_eq (hintact : Intact request session later)
    (hnone : request.spellings = []) : later.forest = session.forest := by
  obtain ⟨entered, hentered, hforest⟩ := hintact.forest
  rw [hnone] at hentered
  obtain rfl := List.prefix_nil.mp hentered
  exact hforest

theorem intact_of_atomic {α : Type} {attempt : Attempt Fault Session α} (request : Request)
    (hatomic : Atomic attempt) : FailsBy (Intact request) attempt := by
  refine hatomic.mono fun session later hsame => ?_
  rw [hsame]
  exact intact_self request session

/-! ## Questions -/

theorem run_onForest_eq_iff {α : Type} {inner : Attempt Fault Forest α} {result : Except Fault α} :
    (onForest inner).run.run session = (result, later) ↔
      ∃ forest, inner.run.run session.forest = (result, forest) ∧
        later = { session with forest := forest } := by
  rw [onForest, run_within]
  constructor
  · intro hrun
    obtain ⟨rfl, rfl⟩ := Prod.mk.inj hrun
    exact ⟨_, rfl, rfl⟩
  · rintro ⟨forest, hrun, rfl⟩
    rw [hrun]

theorem run_onForest_intern (ref : NameRef) (session : Session) :
    (onForest (Forest.intern ref)).run.run session =
      (.ok (session.forest.names.name ref).1, session.interning ref.spellings) := by
  rw [onForest, run_within, Forest.run_intern_eq]
  rfl

theorem run_onForest_internAll (refs : List NameRef) (session : Session) :
    (onForest (Forest.internAll refs)).run.run session =
      (.ok (session.forest.names.names refs).1,
        session.interning (refs.flatMap NameRef.spellings)) := by
  rw [onForest, run_within, Forest.run_internAll_eq]
  rfl

theorem onForest_keeps {α : Type} {inner : Attempt Fault Forest α} (hinner : Keeps inner) :
    Keeps (onForest inner) := by
  intro session
  rw [onForest, run_within, hinner]

/-- A question about the forest changes nothing, whether it is answered or not. -/
theorem ask_run_snd (query : Query) (session : Session) :
    ((ask query).run.run session).2 = session.interning query.spellings := by
  cases query with
  | resolveAll scopes names =>
    rw [ask, run_bind_snd fun _ _ => rfl, run_onForest_internAll]
    rfl
  | ownVariable scope name | resolve scope name | declaredType scope name
  | eventualScope scope name | sameBinding source target name =>
    rw [ask, run_bind_snd fun _ _ => rfl, run_onForest_intern]
    rfl
  | validate scope =>
    rw [ask, run_bind_snd fun _ _ => rfl]
    exact onForest_keeps (Forest.validating_keeps scope) session
  | tryValidate scope =>
    rw [ask, run_map_snd]
    exact onForest_keeps (Forest.tryValidating_keeps scope) session
  | tryValidateAll =>
    rw [ask, run_map_snd]
    exact onForest_keeps Forest.tryValidatingAll_keeps session
  | _ => rfl

/-- A question about flow scopes changes nothing, whether it is answered or not. -/
theorem compare_run_snd (query : FlowQuery) (session : Session) :
    ((compare query).run.run session).2 = session.interning query.spellings := by
  cases query with
  | slot key name =>
    rw [compare, run_bind_snd fun _ _ => rfl, run_onForest_intern]
    rfl
  | slots key names =>
    rw [compare, run_bind_snd fun _ _ => rfl, run_onForest_internAll]
    rfl
  | _ => rfl

/-! ## Types and flow scopes -/

theorem onLattice_atomic {α : Type} {inner : Attempt UnknownType (Prescribed TypeTable) α}
    (hinner : Atomic inner) : Atomic (onLattice inner) := by
  unfold onLattice onTypes
  exact Atomic.within (hinner.failing UnknownType.fault) fun _ => rfl

theorem onTable_atomic {α : Type} {inner : Attempt UnknownType TypeTable α}
    (hinner : Atomic inner) : Atomic (onTable inner) :=
  onLattice_atomic (hinner.within fun _ => rfl)

theorem leastSupertype_atomic (a b : TypeId) : Atomic
    (TypeLattice.leastSupertype a b : Attempt UnknownType (Prescribed TypeTable) TypeId) := by
  have hget : Keeps (get : Attempt UnknownType (Prescribed TypeTable) _) := fun _ => rfl
  refine hget.atomic_bind fun types => ?_
  cases Prescribed.last? types.supertypes (a, b) with
  | some answer => exact (succeeds_pure answer).failsBy
  | none => exact (TypeTable.joining_atomic a b).within fun _ => rfl

/-- A request to the lattice that fails changes nothing. -/
theorem askTypes_atomic (request : TypeRequest) : Atomic (askTypes request) := by
  cases request with
  | function receiver => exact (onTable_atomic (succeeds_always _).failsBy).map _
  | object prototype => exact (onTable_atomic (succeeds_always _).failsBy).map _
  | union types => exact (onTable_atomic (TypeTable.merging_atomic types)).map _
  | addClass superclass =>
    exact (onTable_atomic (succeeds_always _).failsBy).bind fun _ => succeeds_pure _
  | leastSupertype a b => exact (onLattice_atomic (leastSupertype_atomic a b)).map _
  | joinSlots a b =>
    refine (onLattice_atomic ?_).map _
    cases a with
    | none => cases b <;> exact (succeeds_pure _).failsBy
    | some typeA =>
      cases b with
      | none => exact (succeeds_pure _).failsBy
      | some typeB => exact (leastSupertype_atomic typeA typeB).map some
  | sameType a b => exact atomic_reading _
  | sameSlots a b => exact atomic_reading _
  | has trait type => exact atomic_reading _
  | related relation type => exact atomic_reading _

theorem keepingParent_atomic (flow target : String) :
    Atomic (FlowStore.keepingParent flow target) := by
  refine (keeps_reading _).atomic_bind fun found => Succeeds.failsBy fun store => ?_
  cases found.parent? <;> exact ⟨_, _, rfl⟩

/-- What a step on flow scopes leaves if it fails. -/
def OnlyUnites (taken : FlowStep) (session later : Session) : Prop :=
  ∃ unions, (unions ≠ [] → taken.IsJoin) ∧
    later = { session with types := session.types.uniting unions }

theorem takeStep_failsBy (taken : FlowStep) : FailsBy (OnlyUnites taken) (takeStep taken) := by
  refine failsBy_bind succeeds_get.failsBy ?_
  intro session read between hget fault later hrun
  cases hget
  refine (?_ : FailsBy (OnlyUnites taken) _) session fault later hrun
  refine FailsBy.bind ?_ fun made => ?_
  · intro found fault later hrun
    rw [onTypes, run_within, run_within, Prod.mk.injEq] at hrun
    obtain ⟨unions, hjoin, htypes⟩ :=
      session.store.perform_unites session.forest taken found.types
    refine ⟨unions, hjoin, hrun.2.symm.trans ?_⟩
    rw [← htypes, run_bind_snd fun made _ => rfl]
  · exact Succeeds.bind (fun _ => ⟨_, _, rfl⟩) fun _ => succeeds_pure _

/-- Nothing in the growing of a chain can fail. -/
theorem grow_succeeds (flow : Flow) (times : Nat) (links : List Link) :
    Succeeds (grow flow times links) := by
  apply succeeds_foldlM
  intro flow round
  apply succeeds_foldlM
  intro flow link
  apply ((succeeds_always _).within _ _).bind
  intro stamp
  cases link with
  | none => exact succeeds_pure _
  | some link => exact ((succeeds_always _).within _ _).bind fun _ => succeeds_pure _

/-! ## Requests -/

/-- A request that has no answer leaves the session intact. -/
theorem serve_failed (hsized : session.forest.Sized) (hsingle : ¬request.IsSeries) {fault : Fault}
    (hrun : (serve request).run.run session = (.error fault, later)) :
    Intact request session later := by
  cases request with
  | edit performed =>
    obtain ⟨forest, hforest, rfl⟩ := run_onForest_eq_iff.mp (run_map_eq_error_iff.mp hrun)
    rw [Forest.perform_failed hsized hforest]
    exact intact_interning (.edit performed) session
  | nest parent root kind count => exact absurd trivial hsingle
  | declareNumbered scope stem count details => exact absurd trivial hsingle
  | ask query =>
    obtain rfl : _ = later := (ask_run_snd query session).symm.trans (congrArg Prod.snd hrun)
    exact intact_interning (.ask query) session
  | types request =>
    exact intact_of_atomic _ (askTypes_atomic request) session fault later hrun
  | flow taken =>
    refine FailsBy.bind ((takeStep_failsBy taken).mono ?_) (fun made => ?_) session fault later hrun
    · rintro session later ⟨unions, hjoin, rfl⟩
      exact ⟨⟨[], List.nil_prefix, rfl⟩, ⟨unions, hjoin, rfl⟩, rfl⟩
    · cases taken <;> exact succeeds_pure _
  | refine flow name type =>
    rw [serve, run_bind_of_ok (run_onForest_intern name session)] at hrun
    have hfails := (takeStep_failsBy (.refine flow (session.forest.names.name name).1 type)).bind
      fun made => succeeds_pure (Answer.flow made.1)
    obtain ⟨unions, hjoin, rfl⟩ := hfails _ fault later hrun
    exact ⟨⟨name.spellings, List.prefix_refl _, rfl⟩, ⟨unions, hjoin, rfl⟩, rfl⟩
  | chain key target times links =>
    refine FailsBy.bind ?_ (fun flow => ?_) session fault later hrun
    · exact intact_of_atomic _ (atomic_reading _)
    · exact (grow_succeeds flow times links).bind fun grown =>
        ((succeeds_always _).within _ _).bind fun _ => succeeds_pure _
  | parent flow target =>
    have hatomic : Atomic (onStore (FlowStore.keepingParent flow target)) :=
      (keepingParent_atomic flow target).within fun _ => rfl
    exact intact_of_atomic _ (hatomic.map _) session fault later hrun
  | drop flow =>
    exact absurd (run_map_eq_error_iff.mp hrun) ((succeeds_always _).within _ _).ne_error
  | compare query =>
    obtain rfl : _ = later := (compare_run_snd query session).symm.trans (congrArg Prod.snd hrun)
    exact intact_interning (.compare query) session

/-- The lattice has no build errors to report. -/
theorem askTypes_answers (request : TypeRequest) (error : BuildError) :
    Answers (· ≠ .refused error) (askTypes request) := by
  cases request with
  | function receiver | object prototype | union types =>
    exact answers_map (by simp [Answer.handle]) _
  | addClass superclass => exact answers_bind _ fun _ => answers_pure (by simp [Answer.several])
  | leastSupertype a b => exact answers_map (by simp [Answer.handle]) _
  | joinSlots a b =>
    refine answers_map (fun slot => ?_) _
    cases slot <;> simp [Answer.optional, Answer.handle]
  | sameType a b | sameSlots a b =>
    refine answers_reading fun session answer hanswer => ?_
    cases hanswer
    simp
  | has trait type =>
    refine answers_reading fun session answer hanswer => ?_
    obtain ⟨holds, _, rfl⟩ := Except.map_eq_ok_iff.mp hanswer
    simp
  | related relation type =>
    refine answers_reading fun session answer hanswer => ?_
    obtain ⟨slot, _, rfl⟩ := Except.map_eq_ok_iff.mp hanswer
    cases slot <;> simp [Answer.optional, Answer.handle]

/-- A request that is refused leaves what one leaves that fails. -/
theorem serve_refused (hsized : session.forest.Sized) (hsingle : ¬request.IsSeries)
    {error : BuildError}
    (hrun : (serve request).run.run session = (.ok (.refused error), later)) :
    Intact request session later := by
  have hother : ∀ {attempt : Attempt Fault Session Answer},
      Answers (· ≠ .refused error) attempt →
        attempt.run.run session ≠ (.ok (.refused error), later) :=
    fun hanswers hrun => hanswers session _ later hrun rfl
  cases request with
  | edit performed =>
    obtain ⟨outcome, hperform, hanswer⟩ := run_map_eq_ok_iff.mp hrun
    obtain ⟨forest, hforest, rfl⟩ := run_onForest_eq_iff.mp hperform
    cases outcome with
    | refused error =>
      rw [Forest.perform_refused hsized hforest]
      exact intact_interning (.edit performed) session
    | _ => cases hanswer
  | nest parent root kind count => exact absurd trivial hsingle
  | declareNumbered scope stem count details => exact absurd trivial hsingle
  | ask query =>
    obtain rfl : _ = later := (ask_run_snd query session).symm.trans (congrArg Prod.snd hrun)
    exact intact_interning (.ask query) session
  | types request => exact absurd hrun (hother (askTypes_answers request error))
  | flow taken =>
    refine absurd hrun (hother (answers_bind _ fun made => ?_))
    cases taken <;> exact answers_pure (by simp)
  | refine flow name type =>
    exact absurd hrun (hother (answers_bind _ fun _ => answers_bind _ fun _ =>
      answers_pure (by simp)))
  | chain key target times links =>
    exact absurd hrun (hother (answers_bind _ fun _ => answers_bind _ fun _ =>
      answers_bind _ fun _ => answers_pure (by simp)))
  | parent flow target =>
    refine absurd hrun (hother (answers_map (fun value => ?_) _))
    cases value <;> simp [Answer.optional]
  | drop flow => exact absurd hrun (hother (answers_map (by simp) _))
  | compare query =>
    obtain rfl : _ = later := (compare_run_snd query session).symm.trans (congrArg Prod.snd hrun)
    exact intact_interning (.compare query) session

/-- A request that fails, other than a series, leaves the session intact. -/
theorem step_intact (hsized : session.forest.Sized) (hsingle : ¬request.IsSeries)
    {answer : Except Fault Answer}
    (hstep : session.step request = (answer, later)) (hfailed : Failed answer) :
    Intact request session later := by
  match answer, hfailed with
  | .error fault, _ => exact serve_failed hsized hsingle hstep
  | .ok (.refused error), _ => exact serve_refused hsized hsingle hstep

/-- Scopes are nested up to the first that cannot be added. -/
theorem nest_failsAt {parent : ScopeId} {root : NodeId} {kind : Scope.Kind} {count : Nat}
    {fault : Fault} (hstep : session.step (.nest parent root kind count) = (.error fault, later)) :
    ∃ before element, session.FailsAt (.nest parent root kind count) before element ∧
      before.step element = (.error fault, later) := by
  obtain ⟨forest, hforest, rfl⟩ := run_onForest_eq_iff.mp (run_map_eq_error_iff.mp hstep)
  obtain ⟨n, inner, between, hn, hbefore, hlast⟩ := foldlM_range_error hforest
  have hinner : session.step (.nest parent root kind n) =
      (.ok (.handle inner), { session with forest := between }) :=
    run_map_eq_ok_iff.mpr ⟨inner, run_onForest_eq_iff.mpr ⟨between, hbefore, rfl⟩, rfl⟩
  refine ⟨_, _, .nest hn hinner, ?_⟩
  refine run_map_eq_error_iff.mpr (run_onForest_eq_iff.mpr ⟨forest, ?_, rfl⟩)
  -- Scopes of a nest reserve nothing, so no names are interned on the way.
  rw [Forest.perform, run_bind_of_ok (Forest.run_internAll [] between)]
  exact run_map_eq_error_iff.mpr hlast

/-- Numbered variables are declared up to the first that cannot be. -/
theorem declareNumbered_failsAt {scope : ScopeId} {stem : String} {count : Nat}
    {details : Variable.Details} {fault : Fault}
    (hstep : session.step (.declareNumbered scope stem count details) = (.error fault, later)) :
    ∃ before element,
      session.FailsAt (.declareNumbered scope stem count details) before element ∧
        before.step element = (.error fault, later) := by
  obtain ⟨forest, hforest, rfl⟩ := run_onForest_eq_iff.mp (run_map_eq_error_iff.mp hstep)
  obtain ⟨n, last, between, hn, hbefore, hlast⟩ := foldlM_range_error hforest
  have hdeclared : session.step (.declareNumbered scope stem n details) =
      (.ok (.optional .handle last), { session with forest := between }) :=
    run_map_eq_ok_iff.mpr ⟨last, run_onForest_eq_iff.mpr ⟨between, hbefore, rfl⟩, rfl⟩
  refine ⟨_, _, .declareNumbered hn hdeclared, ?_⟩
  refine run_map_eq_error_iff.mpr (run_onForest_eq_iff.mpr ⟨forest, ?_, rfl⟩)
  exact run_map_eq_error_iff.mpr (run_map_eq_error_iff.mp hlast)

theorem FailsAt.not_isSeries {before : Session} {element : Request}
    (hfails : session.FailsAt request before element) : ¬element.IsSeries := by
  cases hfails with
  | single hsingle => exact hsingle
  | nest hn hbefore => exact id
  | declareNumbered hn hbefore => exact id

theorem sized_of_step (hsized : session.forest.Sized) {answer : Except Fault Answer}
    (hstep : session.step request = (answer, later)) : later.forest.Sized := by
  obtain rfl : _ = later := congrArg Prod.snd hstep
  exact (Forest.changes_of_sized hsized (Through.of_steps (serve_goesBy request session))).2

theorem FailsAt.sized {before : Session} {element : Request}
    (hfails : session.FailsAt request before element) (hsized : session.forest.Sized) :
    before.forest.Sized := by
  cases hfails with
  | single hsingle => exact hsized
  | nest hn hbefore => exact sized_of_step hsized hbefore
  | declareNumbered hn hbefore => exact sized_of_step hsized hbefore

/-- A request that fails stops somewhere, and where it stops the session is left intact. -/
theorem step_failed (root : NodeId) (types : Prescribed TypeTable) (history : List Request)
    {request : Request} {answer : Except Fault Answer} {later : Session}
    (hstep : ((start root types).after history).step request = (answer, later))
    (hfailed : Failed answer) :
    ∃ before element, ((start root types).after history).FailsAt request before element ∧
      before.step element = (answer, later) ∧ Intact element before later := by
  -- A session that was reached has ordinals wherever it has numbers for variables, so no declaration
  -- fails after its first write.
  have hsized := (built_after root types history).sized
  generalize (start root types).after history = session at hstep hsized ⊢
  by_cases hseries : request.IsSeries
  · have hfault : ∃ fault, answer = .error fault := by
      match answer, hfailed with
      | .error fault, _ => exact ⟨fault, rfl⟩
      | .ok (.refused error), _ =>
        cases request with
        | nest parent root kind count =>
          obtain ⟨_, _, hanswer⟩ := run_map_eq_ok_iff.mp hstep
          cases hanswer
        | declareNumbered scope stem count details =>
          obtain ⟨last, _, hanswer⟩ := run_map_eq_ok_iff.mp hstep
          cases last <;> cases hanswer
        | _ => cases hseries
    obtain ⟨fault, rfl⟩ := hfault
    have hstops : ∃ before element, session.FailsAt request before element ∧
        before.step element = (.error fault, later) := by
      cases request with
      | nest parent root kind count => exact nest_failsAt hstep
      | declareNumbered scope stem count details => exact declareNumbered_failsAt hstep
      | _ => cases hseries
    obtain ⟨before, element, hstops, helement⟩ := hstops
    exact ⟨before, element, hstops, helement,
      step_intact (hstops.sized hsized) hstops.not_isSeries helement trivial⟩
  · exact ⟨session, request, .single hseries, hstep, step_intact hsized hseries hstep hfailed⟩

/-- Two branches that refine two names, of which a block reserves the first and declares the second.
One type of the second name is unknown. -/
def branching : List Request :=
  [.edit (.addScope ⟨0⟩ ⟨1⟩ .block [.spelled "x"] none),
    .edit (.declare ⟨1⟩ (.spelled "y") ⟨none, none, none, false⟩),
    .flow (.entry ⟨1⟩ "f"), .refine "f" (.spelled "x") ⟨0⟩, .refine "f" (.spelled "y") ⟨0⟩,
    .flow (.entry ⟨1⟩ "g"), .refine "g" (.spelled "x") ⟨1⟩, .refine "g" (.spelled "y") ⟨99⟩]

def unknownBranch : Session := (start ⟨0⟩ (.plain .basic)).after branching

private def refusal? : Answer → Option BuildError
  | .refused error => some error
  | _ => none

private theorem eq_refused {answer : Answer} {error : BuildError}
    (hrefusal : refusal? answer = some error) : answer = .refused error := by
  cases answer <;> cases hrefusal
  rfl

/-- Their join fails at the second name. The union for the first one stays, and nothing else. To
declare the second name again is refused, and the block and its reserved name stay. -/
theorem step_failed_of_unknownBranch :
    (∃ later, unknownBranch.step (.flow (.join ["f", "g"] "h")) =
        (.error (.missing .type 99), later) ∧
      later.forest = unknownBranch.forest ∧ later.store = unknownBranch.store ∧
      later.types.types.shapes = unknownBranch.types.types.shapes.push (.union [⟨0⟩, ⟨1⟩])) ∧
    ∃ later, unknownBranch.step
        (.edit (.tryDeclare ⟨1⟩ (.spelled "y") ⟨none, some ⟨0⟩, none, false⟩)) =
        (.ok (.refused (.duplicateName ⟨1⟩ "y")), later) ∧
      later.forest.scopes = unknownBranch.forest.scopes ∧
      later.forest.vars = unknownBranch.forest.vars ∧ later.store = unknownBranch.store := by
  constructor
  · have hcomputed : (fun _ => ()) <$> (unknownBranch.step (.flow (.join ["f", "g"] "h"))).1 =
          .error (.missing .type 99) ∧
        (unknownBranch.step (.flow (.join ["f", "g"] "h"))).2.types.types.shapes =
          unknownBranch.types.types.shapes.push (.union [⟨0⟩, ⟨1⟩]) := by
      decide +kernel
    rcases hstep : unknownBranch.step (.flow (.join ["f", "g"] "h")) with ⟨fault | answer, later⟩
    · rw [hstep] at hcomputed
      obtain ⟨hfault, hshapes⟩ := hcomputed
      cases hfault
      obtain ⟨_, _, hfails, _, hintact⟩ : ∃ before element, unknownBranch.FailsAt _ before element ∧
          before.step element = _ ∧ Intact element before later :=
        step_failed ⟨0⟩ (.plain .basic) branching hstep trivial
      cases hfails with
      | single hsingle => exact ⟨later, rfl, hintact.forest_eq rfl, hintact.store, hshapes⟩
    · rw [hstep] at hcomputed
      cases hcomputed.1
  · have hcomputed : refusal? <$> (unknownBranch.step
          (.edit (.tryDeclare ⟨1⟩ (.spelled "y") ⟨none, some ⟨0⟩, none, false⟩))).1 =
        .ok (some (.duplicateName ⟨1⟩ "y")) := by
      decide +kernel
    rcases hstep : unknownBranch.step
      (.edit (.tryDeclare ⟨1⟩ (.spelled "y") ⟨none, some ⟨0⟩, none, false⟩)) with ⟨answer, later⟩
    rw [hstep] at hcomputed
    obtain ⟨refused, rfl, hrefusal⟩ := Except.map_eq_ok_iff.mp hcomputed
    obtain rfl := eq_refused hrefusal
    obtain ⟨_, _, hfails, _, hintact⟩ : ∃ before element, unknownBranch.FailsAt _ before element ∧
        before.step element = _ ∧ Intact element before later :=
      step_failed ⟨0⟩ (.plain .basic) branching hstep trivial
    cases hfails with
    | single hsingle => exact ⟨later, rfl, hintact.scopes, hintact.vars, hintact.store⟩

end Session
end FlowTyping
