import FlowTyping.Forest.Building
import FlowTyping.Proofs.Attempt

/-!
# Building in place

What is asked for is checked before anything is written, but for one check: a declaration takes its
name out of the reserved ones before its variable has an ordinal. No scope declares more variables
than there are, so an ordinal is left wherever there was a number for the variable, and an edit that
fails has written nothing.
-/
namespace FlowTyping.Forest
open Attempt

def push (forest : Forest) (scope : Scope) : ScopeId × Forest :=
  (⟨forest.scopes.size⟩, { forest with scopes := forest.scopes.push scope })

/-- Enters a new variable in both tables and takes its name out of the reserved ones. -/
def enter (forest : Forest) (scope : ScopeId) (name : Name) (details : Variable.Details)
    (ordinal : Nat) : VarId × Forest :=
  let id : VarId := ⟨forest.vars.size⟩
  (id, { forest with
    scopes := forest.scopes.modify scope.raw fun within => { within with
      declared := within.declared.push id
      index := within.index.insert name id
      reserved := within.reserved.erase name }
    vars := forest.vars.push
      { details with id := id, name := name, scope := scope, ordinal := ordinal } })

structure Addable (forest : Forest) (parent : ScopeId) (around : Scope) (root : NodeId)
    (kind : Scope.Kind) (reserved : NameSet) : Prop where
  inner : kind.isRoot = false
  inside : forest.scopes[parent.raw]? = some around
  live : around.kind ≠ .bottom
  apart : around.root ≠ root
  simple : forest.requireSimple reserved.toList = .ok ()
  room : forest.scopes.size < Handle.capacity

structure Declarable (forest : Forest) (id : ScopeId) (within : Scope) (name : Name) : Prop where
  inside : forest.scopes[id.raw]? = some within
  live : within.kind ≠ .bottom
  named : name ≠ .empty
  free : name ∉ within.index
  room : forest.vars.size < Handle.capacity
  ordinal : within.declared.size < Handle.capacity

/-- All scopes and variables have numbers, and no scope declares more variables than there are. -/
structure Sized (forest : Forest) : Prop where
  scopes : forest.scopes.size ≤ Handle.capacity
  vars : forest.vars.size ≤ Handle.capacity
  declared : ∀ {i : Nat} {scope}, forest.scopes[i]? = some scope →
    scope.declared.size ≤ forest.vars.size

variable {forest later : Forest} {id parent : ScopeId} {within around : Scope} {root : NodeId}
  {kind : Scope.Kind} {name : Name} {names : List Name}

theorem Sized.naming (hsized : forest.Sized) (table : NameTable) :
    ({ forest with names := table } : Forest).Sized :=
  ⟨hsized.scopes, hsized.vars, hsized.declared⟩

theorem number_eq_ok_iff {counted : Counted} {count n : Nat} :
    number counted count = .ok n ↔ count < Handle.capacity ∧ count = n := by
  unfold number
  split
  next hroom => simp [hroom]
  next hfull => simp [hfull]

theorem number_of_lt (counted : Counted) {count : Nat} (hroom : count < Handle.capacity) :
    number counted count = .ok count :=
  number_eq_ok_iff.mpr ⟨hroom, rfl⟩

theorem number_of_not_lt (counted : Counted) {count : Nat} (hfull : ¬count < Handle.capacity) :
    number counted count = .error (.exceeded counted) :=
  if_neg hfull

/-! ## Single writes -/

theorem run_editScope (id : ScopeId) (edit : Scope → Scope) (forest : Forest) :
    (editScope id edit).run.run forest =
      (if id.raw < forest.scopes.size then .ok () else .error (.missing .scope id.raw),
        { forest with scopes := forest.scopes.modify id.raw edit }) := by
  rw [editScope, run_within, run_editEntry]

theorem run_editScope_of_some (hscope : forest.scopes[id.raw]? = some within)
    (edit : Scope → Scope) :
    (editScope id edit).run.run forest =
      (.ok (), { forest with scopes := forest.scopes.modify id.raw edit }) := by
  rw [run_editScope, if_pos (Array.getElem?_eq_some_iff.mp hscope).1]

theorem run_editVar (id : VarId) (edit : Variable → Variable) (forest : Forest) :
    (editVar id edit).run.run forest =
      (if id.raw < forest.vars.size then .ok () else .error (.missing .var id.raw),
        { forest with vars := forest.vars.modify id.raw edit }) := by
  rw [editVar, run_within, run_editEntry]

theorem editScope_atomic (id : ScopeId) (edit : Scope → Scope) : Atomic (editScope id edit) :=
  (editEntry_atomic _ _ _).within fun _ => rfl

theorem editVar_atomic (id : VarId) (edit : Variable → Variable) : Atomic (editVar id edit) :=
  (editEntry_atomic _ _ _).within fun _ => rfl

theorem scope_modify (hscope : forest.scopes[id.raw]? = some within) (edit : Scope → Scope) :
    ({ forest with scopes := forest.scopes.modify id.raw edit } : Forest).scopes[id.raw]? =
      some (edit within) := by
  simp only [Array.getElem?_modify, hscope, if_true, Option.map_some]

/-! ## Scopes -/

variable {outer : List ScopeId} {reserved : NameSet}

theorem run_pushing (hroom : forest.scopes.size < Handle.capacity) {parent : Option ScopeId}
    (houter : forest.around parent = .ok outer) (root : NodeId) (kind : Scope.Kind)
    (reserved : NameSet) (module : Option ModuleId) :
    (pushing parent root kind reserved module).run.run forest =
      (.ok ⟨forest.scopes.size⟩, (forest.push (.unbuilt outer kind root reserved module)).2) := by
  simp only [pushing, run_reading_bind, number_of_lt .scope hroom, houter]
  rfl

/-- A scope is added only where a number is left for it. -/
theorem run_pushing_of_not_lt (hfull : ¬forest.scopes.size < Handle.capacity)
    (parent : Option ScopeId) (root : NodeId) (kind : Scope.Kind) (reserved : NameSet)
    (module : Option ModuleId) :
    (pushing parent root kind reserved module).run.run forest =
      (.error (.exceeded .scope), forest) := by
  simp only [pushing, run_reading_bind, number_of_not_lt .scope hfull]

theorem run_addingBottom (root : NodeId) (forest : Forest) :
    (addingBottom root).run.run forest =
      if forest.scopes.size < Handle.capacity then
        (.ok ⟨forest.scopes.size⟩, (forest.push (.unbuilt [] .bottom root ∅ none)).2)
      else (.error (.exceeded .scope), forest) := by
  split
  next hroom => exact run_pushing hroom rfl root .bottom ∅ none
  next hfull => exact run_pushing_of_not_lt hfull none root .bottom ∅ none

theorem Addable.eq (hadds : forest.Addable parent around root kind reserved)
    (hparent : forest.scopes[parent.raw]? = some within) : around = within :=
  Option.some.inj (hadds.inside.symm.trans hparent)

/-- A scope is added where it may be added. Elsewhere nothing is written. -/
theorem run_adding (forest : Forest) (parent : ScopeId) (root : NodeId) (kind : Scope.Kind)
    (names : List Name) (module : Option ModuleId) :
    let run := (adding parent root kind names module).run.run forest
    (∃ around, forest.Addable parent around root kind (.ofList names) ∧
      run = (.ok ⟨forest.scopes.size⟩,
        (forest.push (.unbuilt (parent :: around.outer) kind root (.ofList names) module)).2)) ∨
    (∀ around, ¬forest.Addable parent around root kind (.ofList names)) ∧
      ∃ fault, run = (.error fault, forest) := by
  dsimp only
  -- The checks in their order: each that fails ends the run before the first write.
  by_cases hkind : kind.isRoot = true
  · refine .inr ⟨fun _ hadds => by simp [hadds.inner] at hkind, .parentedRoot kind parent, ?_⟩
    rw [adding, if_pos hkind, run_throw_bind]
  simp only [adding, if_neg hkind, run_reading_bind]
  cases hparent : forest.scopes[parent.raw]? with
  | none =>
    refine .inr ⟨fun _ hadds => by simp [hadds.inside] at hparent, ?_⟩
    simp only [Forest.scope, hparent]
    exact ⟨_, rfl⟩
  | some around =>
    simp only [scope_eq_ok_iff.mpr hparent]
    by_cases hdead : around.kind = .bottom
    · refine .inr ⟨fun _ hadds => hadds.live (hadds.eq hparent ▸ hdead), .childOfBottom parent, ?_⟩
      simp only [if_pos hdead, run_throw_bind]
    simp only [if_neg hdead]
    by_cases hroot : around.root = root
    · refine .inr ⟨fun _ hadds => hadds.apart (hadds.eq hparent ▸ hroot), .sharedRoot root parent, ?_⟩
      simp only [if_pos hroot, run_throw_bind]
    simp only [if_neg hroot, run_reading_bind]
    cases hsimple : forest.requireSimple (Std.ExtTreeSet.ofList names).toList with
    | error fault =>
      exact .inr ⟨fun _ hadds => by simp [hadds.simple] at hsimple, fault, rfl⟩
    | ok checked =>
      by_cases hroom : forest.scopes.size < Handle.capacity
      · have houter : forest.around (some parent) = .ok (parent :: around.outer) := by
          rw [Forest.around, scope_eq_ok_iff.mpr hparent]
          rfl
        exact .inl ⟨around, ⟨Bool.eq_false_iff.mpr hkind, hparent, hdead, hroot, hsimple, hroom⟩,
          run_pushing hroom houter root kind _ module⟩
      · exact .inr ⟨fun _ hadds => hroom hadds.room, _,
          run_pushing_of_not_lt hroom _ root kind _ module⟩

theorem adding_atomic (parent : ScopeId) (root : NodeId) (kind : Scope.Kind) (names : List Name)
    (module : Option ModuleId) : Atomic (adding parent root kind names module) := by
  intro forest error later hrun
  rcases run_adding forest parent root kind names module with ⟨_, _, hadds⟩ | ⟨_, fault, hfails⟩
  · cases hadds.symm.trans hrun
  · exact (Prod.mk.inj (hfails.symm.trans hrun)).2.symm

/-! ## Declarations -/

private theorem modify_modify {α : Type} (values : Array α) (i : Nat) (first next : α → α) :
    (values.modify i first).modify i next = values.modify i fun value => next (first value) := by
  apply Array.ext_getElem?
  intro j
  simp only [Array.getElem?_modify]
  split
  next => rw [Option.map_map]; rfl
  next => rfl

/-- Nothing needs to be taken out of an empty set. -/
theorem erase_of_isEmpty {reserved : NameSet} (hempty : reserved.isEmpty = true) (name : Name) :
    reserved.erase name = reserved := by
  rw [Std.ExtTreeSet.isEmpty_iff.mp hempty, Std.ExtTreeSet.erase_empty]

/-- A variable is entered if there is a number and an ordinal for it. If the ordinal is missing, its
name has been taken out of the reserved ones. -/
theorem run_entering (hscope : forest.scopes[id.raw]? = some within) (name : Name)
    (details : Variable.Details) :
    (entering id name details).run.run forest =
      if forest.vars.size < Handle.capacity then
        if within.declared.size < Handle.capacity then
          (.ok ⟨forest.vars.size⟩, (forest.enter id name details within.declared.size).2)
        else (.error (.exceeded .ordinal), { forest with
          scopes := forest.scopes.modify id.raw fun within =>
            { within with reserved := within.reserved.erase name } })
      else (.error (.exceeded .var), forest) := by
  -- The test for an empty set saves the removal and changes nothing else.
  have hunreserve : (fun within : Scope => if within.reserved.isEmpty then within
      else { within with reserved := within.reserved.erase name }) =
      fun within => { within with reserved := within.reserved.erase name } := by
    funext within
    split
    next hempty => rw [erase_of_isEmpty hempty]
    next => rfl
  split
  next hroom =>
    simp only [entering, run_reading_bind, number_of_lt .var hroom]
    rw [hunreserve, run_bind_of_ok (run_editScope_of_some hscope _)]
    have hunreserved := scope_modify hscope fun within =>
      { within with reserved := within.reserved.erase name }
    simp only [run_reading_bind, scope_eq_ok_iff.mpr hunreserved, Except.ok_bind]
    by_cases hordinal : within.declared.size < Handle.capacity
    · rw [if_pos hordinal]
      simp only [number_of_lt .ordinal hordinal]
      rw [run_bind_of_ok (run_editScope_of_some hunreserved _)]
      have hindexed := scope_modify hunreserved fun within =>
        { within with index := within.index.insert name ⟨forest.vars.size⟩ }
      rw [run_bind_of_ok (run_editScope_of_some hindexed _), run_bind_of_ok (run_modify _ _)]
      simp only [modify_modify]
      rfl
    · simp only [if_neg hordinal, number_of_not_lt .ordinal hordinal]
  next hfull => simp only [entering, run_reading_bind, number_of_not_lt .var hfull]

theorem Declarable.eq {found : Scope} (hdeclares : forest.Declarable id within name)
    (hscope : forest.scopes[id.raw]? = some found) : within = found :=
  Option.some.inj (hdeclares.inside.symm.trans hscope)

/-- A variable is declared where its name may be declared. Elsewhere there is another answer, and in
a sized forest nothing is written. -/
theorem run_tryBinding (forest : Forest) (id : ScopeId) (name : Name)
    (details : Variable.Details) :
    let run := (tryBinding id name details).run.run forest
    (∃ within, forest.Declarable id within name ∧
      run = (.ok (.ok ⟨forest.vars.size⟩),
        (forest.enter id name details within.declared.size).2)) ∨
    (∀ within, ¬forest.Declarable id within name) ∧
      ∃ answer later, run = (answer, later) ∧ (∀ var, answer ≠ .ok (.ok var)) ∧
        (forest.Sized → later = forest) := by
  dsimp only
  simp only [tryBinding, run_reading_bind, isBottom]
  cases hscope : forest.scopes[id.raw]? with
  | none =>
    refine .inr ⟨fun _ hdeclares => by simp [hdeclares.inside] at hscope, ?_⟩
    simp only [Forest.scope, hscope]
    exact ⟨_, _, rfl, by simp, fun _ => rfl⟩
  | some within =>
    simp only [scope_eq_ok_iff.mpr hscope, Except.ok_bind, Except.pure_eq_ok, decide_eq_true_eq]
    by_cases hdead : within.kind = .bottom
    · refine .inr ⟨fun _ hdeclares => hdeclares.live (hdeclares.eq hscope ▸ hdead), ?_⟩
      simp only [if_pos hdead, run_throw_bind]
      exact ⟨_, _, rfl, by simp, fun _ => rfl⟩
    simp only [if_neg hdead]
    by_cases hempty : name = .empty
    · refine .inr ⟨fun _ hdeclares => hdeclares.named hempty, ?_⟩
      simp only [if_pos hempty]
      exact ⟨_, _, rfl, by simp, fun _ => rfl⟩
    simp only [if_neg hempty, run_reading_bind, scope_eq_ok_iff.mpr hscope]
    by_cases hbound : within.index.contains name = true
    · refine .inr ⟨fun _ hdeclares => hdeclares.free (hdeclares.eq hscope ▸ hbound), ?_⟩
      simp only [if_pos hbound, run_reading_bind]
      cases forest.spelling name <;> exact ⟨_, _, rfl, by simp, fun _ => rfl⟩
    simp only [if_neg hbound]
    have hentering := run_entering hscope name details
    split at hentering
    next hroom =>
      split at hentering
      next hordinal =>
        rw [run_bind_of_ok hentering]
        exact .inl ⟨within, ⟨hscope, hdead, hempty, hbound, hroom, hordinal⟩, rfl⟩
      next hordinal =>
        -- No number is left for the ordinal, though there was one for the variable.
        refine .inr ⟨fun _ hdeclares => hordinal (hdeclares.eq hscope ▸ hdeclares.ordinal), ?_⟩
        rw [run_bind_of_error hentering]
        refine ⟨_, _, rfl, by simp, fun hsized => absurd ?_ hordinal⟩
        exact Nat.lt_of_le_of_lt (hsized.declared hscope) hroom
    next hfull =>
      refine .inr ⟨fun _ hdeclares => hfull hdeclares.room, ?_⟩
      rw [run_bind_of_error hentering]
      exact ⟨_, _, rfl, by simp, fun _ => rfl⟩

theorem run_tryBinding_eq_ok_iff {details : Variable.Details} {var : VarId} :
    (tryBinding id name details).run.run forest = (.ok (.ok var), later) ↔
      ∃ within, forest.Declarable id within name ∧
        forest.enter id name details within.declared.size = (var, later) := by
  rcases run_tryBinding forest id name details with
    ⟨within, hdeclares, hrun⟩ | ⟨hnot, answer, left, hrun, hanswer, _⟩
  · rw [hrun]
    constructor
    · intro heq
      cases heq
      exact ⟨within, hdeclares, rfl⟩
    · rintro ⟨within', hdeclares', henter⟩
      obtain rfl := hdeclares.eq hdeclares'.inside
      cases henter
      rfl
  · rw [hrun]
    constructor
    · intro heq
      cases heq
      exact absurd rfl (hanswer var)
    · rintro ⟨within, hdeclares, _⟩
      exact absurd hdeclares (hnot within)

theorem run_expecting {α : Type} (attempt : Attempt Fault Forest (Except BuildError α))
    (forest : Forest) : (expecting attempt).run.run forest =
      match attempt.run.run forest with
      | (.ok (.ok value), later) => (.ok value, later)
      | (.ok (.error error), later) => (.error (.build error), later)
      | (.error fault, later) => (.error fault, later) := by
  rw [expecting]
  cases hrun : attempt.run.run forest with
  | mk answer later =>
    cases answer with
    | error fault => rw [run_bind_of_error hrun]
    | ok answer =>
      rw [run_bind_of_ok hrun]
      cases answer <;> rfl

theorem run_binding_eq_ok_iff {details : Variable.Details} {var : VarId} :
    (binding id name details).run.run forest = (.ok var, later) ↔
      (tryBinding id name details).run.run forest = (.ok (.ok var), later) := by
  rw [binding, run_expecting]
  split
  all_goals
    next hrun => rw [hrun]; constructor <;> intro heq <;> cases heq <;> rfl

/-- What a declaration answers, with the forest that it makes if it goes through. -/
def tryDeclare (forest : Forest) (scope : ScopeId) (name : Name) (details : Variable.Details) :
    Except Fault (Except BuildError (VarId × Forest)) :=
  match (tryBinding scope name details).run.run forest with
  | (.ok (.ok var), later) => .ok (.ok (var, later))
  | (.ok (.error error), _) => .ok (.error error)
  | (.error fault, _) => .error fault

def declare (forest : Forest) (scope : ScopeId) (name : Name) (details : Variable.Details) :
    Except Fault (VarId × Forest) :=
  (binding scope name details).outcome forest

theorem tryDeclare_eq_ok_iff_run {details : Variable.Details} {var : VarId} :
    forest.tryDeclare id name details = .ok (.ok (var, later)) ↔
      (tryBinding id name details).run.run forest = (.ok (.ok var), later) := by
  unfold tryDeclare
  split
  all_goals
    next hrun => rw [hrun]; constructor <;> intro heq <;> cases heq <;> rfl

theorem tryDeclare_eq_ok_iff {details : Variable.Details} {result : VarId × Forest} :
    forest.tryDeclare id name details = .ok (.ok result) ↔
      ∃ within, forest.Declarable id within name ∧
        forest.enter id name details within.declared.size = result :=
  tryDeclare_eq_ok_iff_run.trans run_tryBinding_eq_ok_iff

theorem declare_eq_ok_iff {details : Variable.Details} {result : VarId × Forest} :
    forest.declare id name details = .ok result ↔
      forest.tryDeclare id name details = .ok (.ok result) :=
  outcome_eq_ok_iff.trans (run_binding_eq_ok_iff.trans tryDeclare_eq_ok_iff_run.symm)

/-! ## Validation -/

/-- A scope from which nothing is missing gets an empty set for an empty set. -/
theorem tryValidating_keeps (id : ScopeId) : Keeps (tryValidating id) := by
  intro forest
  simp only [tryValidating, run_reading_bind]
  cases hscope : forest.scopes[id.raw]? with
  | none => simp only [Forest.scope, hscope]
  | some within =>
    simp only [scope_eq_ok_iff.mpr hscope]
    cases hempty : within.reserved.isEmpty with
    | false =>
      simp only [Bool.not_false, if_true, run_reading_bind]
      cases within.reserved.toList.mapM forest.spelling <;> rfl
    | true =>
      simp only [Bool.not_true, Bool.false_eq_true, if_false]
      rw [run_bind_of_ok (run_editScope_of_some hscope _)]
      -- The write puts an empty set in the place of an empty set.
      have hsame : forest.scopes.modify id.raw (fun within => { within with reserved := ∅ }) =
          forest.scopes := by
        apply Array.ext_getElem?
        intro i
        rw [Array.getElem?_modify]
        split
        next hi =>
          rw [← hi, hscope, Option.map_some, ← Std.ExtTreeSet.isEmpty_iff.mp hempty]
        next => rfl
      simp only [hsame]
      rfl

/-- The verdict of validation on a scope. -/
def tryValidate (forest : Forest) (scope : ScopeId) : Except Fault (Except BuildError Unit) :=
  ((tryValidating scope).run.run forest).1

theorem run_tryValidating (id : ScopeId) (forest : Forest) :
    (tryValidating id).run.run forest = (forest.tryValidate id, forest) :=
  Prod.ext rfl (tryValidating_keeps id forest)

theorem tryValidate_eq (forest : Forest) (id : ScopeId) :
    forest.tryValidate id = do
      let reserved := (← forest.scope id).reserved
      if reserved.isEmpty then return .ok ()
      let spellings ← reserved.toList.mapM forest.spelling
      return .error (.reservedNamesRemain id (spellings.mergeSort fun a b => decide (a ≤ b))) := by
  simp only [tryValidate, tryValidating, run_reading_bind]
  cases hscope : forest.scopes[id.raw]? with
  | none => simp only [Forest.scope, hscope, Except.error_bind]
  | some within =>
    simp only [scope_eq_ok_iff.mpr hscope, Except.ok_bind]
    cases hempty : within.reserved.isEmpty with
    | false =>
      simp only [Bool.not_false, if_true, run_reading_bind, Bool.false_eq_true, if_false]
      cases within.reserved.toList.mapM forest.spelling <;> rfl
    | true =>
      simp only [Bool.not_true, Bool.false_eq_true, if_false, if_true]
      rw [run_bind_of_ok (run_editScope_of_some hscope _)]
      rfl

theorem validating_keeps (id : ScopeId) : Keeps (validating id) := by
  refine (tryValidating_keeps id).bind fun verdict => ?_
  cases verdict <;> exact fun _ => rfl

theorem tryValidatingEach_keeps (indices : List Nat) : Keeps (tryValidatingEach indices) := by
  induction indices with
  | nil => exact keeps_pure _
  | cons index indices ih =>
    refine (keeps_answer _).bind fun index => (tryValidating_keeps ⟨index⟩).bind fun verdict => ?_
    cases verdict with
    | ok complete => exact ih
    | error error => exact keeps_pure _

theorem tryValidatingAll_keeps : Keeps tryValidatingAll :=
  Keeps.bind (fun _ => rfl) fun forest => tryValidatingEach_keeps (.range forest.scopes.size)

def tryValidateEach (forest : Forest) (indices : List Nat) :
    Except Fault (Except BuildError Unit) :=
  ((tryValidatingEach indices).run.run forest).1

theorem tryValidateEach_cons (forest : Forest) (index : Nat) (indices : List Nat) :
    forest.tryValidateEach (index :: indices) = do
      let id ← number .scope index
      match ← forest.tryValidate ⟨id⟩ with
      | .ok () => forest.tryValidateEach indices
      | .error error => return .error error := by
  rw [tryValidateEach, tryValidatingEach]
  cases hnumber : number .scope index with
  | error fault => rfl
  | ok id =>
    have hfirst := run_tryValidating ⟨id⟩ forest
    rw [answer_ok, pure_bind, Except.ok_bind]
    cases hverdict : forest.tryValidate ⟨id⟩ with
    | error fault =>
      rw [hverdict] at hfirst
      rw [run_bind_of_error hfirst]
      rfl
    | ok verdict =>
      rw [hverdict] at hfirst
      rw [run_bind_of_ok hfirst]
      cases verdict <;> rfl

def tryValidateAll (forest : Forest) : Except Fault (Except BuildError Unit) :=
  (tryValidatingAll.run.run forest).1

end FlowTyping.Forest
