import FlowTyping.Proofs.Forest.Reserved
import FlowTyping.Proofs.Session

/-!
# Reserved names in sessions

A scope starts out with the names that it was created with as reserved. Whatever is asked of the
session from then on, what remains of them are those that no request has declared in the scope. So
the verdict of validation is told by the requests, whichever of them failed and whatever was built
elsewhere.
-/
namespace FlowTyping
open Attempt

/-- What the creation of a scope answers, and the scope that it adds. -/
theorem Forest.eq_of_run_addScope {forest later : Forest} {parent : ScopeId} {root : NodeId}
    {kind : Scope.Kind} {reserved : List NameRef} {module : Option ModuleId}
    {outcome : Edit.Outcome}
    (hrun : (perform (.addScope parent root kind reserved module)).run.run forest =
      (.ok outcome, later)) :
    outcome = .added ⟨forest.scopes.size⟩ ∧ ∃ outer,
      later.scopes[forest.scopes.size]? =
        some (.unbuilt outer kind root (.ofList (forest.names.names reserved).1) module) := by
  rw [run_addScope] at hrun
  obtain ⟨id, hadding, rfl⟩ := run_map_eq_ok_iff.mp hrun
  rcases run_adding { forest with names := (forest.names.names reserved).2 } parent root kind
    (forest.names.names reserved).1 module with ⟨around, _, hadds⟩ | ⟨_, fault, hfails⟩
  · cases hadds.symm.trans hadding
    exact ⟨rfl, _, Array.getElem?_push_size⟩
  · cases hfails.symm.trans hadding

namespace Session

/-- The edits that a request is made of, as far as it declares anything. -/
def Request.edits : Request → List Edit
  | .edit performed => [performed]
  | .declareNumbered scope stem count details =>
    Forest.numberedEdits scope stem details (List.range count)
  | _ => []

def declares (id : ScopeId) : Session → List Request → List Name
  | _, [] => []
  | session, request :: requests =>
    session.forest.declaresInTurn id request.edits ++
      (session.step request).2.declares id requests

theorem run_map_onForest {α : Type} (tell : α → Answer) (inner : Attempt Fault Forest α)
    (session : Session) : (tell <$> onForest inner).run.run session =
      ((inner.run.run session.forest).1.map tell,
        { session with forest := (inner.run.run session.forest).2 }) := by
  rw [run_map, onForest, run_within]

/-- A request changes the account of a scope by what it declares there. -/
theorem step_declaredSince {session : Session} (hsized : session.forest.Sized)
    (request : Request) (id : ScopeId) :
    (session.step request).2.forest.DeclaredSince session.forest id
      (session.forest.declaresInTurn id request.edits) := by
  cases request with
  | edit performed =>
    rw [step, serve, run_map_onForest, Request.edits, Forest.declaresInTurn_singleton]
    exact Forest.perform_declaredSince hsized performed id
  | nest parent root kind count =>
    rw [step, serve, run_map_onForest]
    exact Forest.nest_declaredSince session.forest parent root kind count id
  | declareNumbered scope stem count details =>
    rw [step, serve, run_map_onForest]
    exact Forest.declareNumbered_declaredSince hsized scope stem count details id
  | _ =>
    -- All other requests take no steps on the forest but interning, which declares nothing.
    have hinterns : Forest.Interns fun forest later => later.DeclaredSince forest id [] :=
      fun _ _ => .of_scopes rfl
    refine .of_steps (Through.of_steps (serve_goesBy_interning hinterns ?_ session))
    exact not_false

theorem after_declaredSince {session : Session} (hsized : session.forest.Sized)
    (requests : List Request) (id : ScopeId) :
    (session.after requests).forest.DeclaredSince session.forest id
      (session.declares id requests) := by
  induction requests generalizing session with
  | nil => exact .refl session.forest id
  | cons request requests ih =>
    have hlater : (session.step request).2.forest.Sized :=
      (Forest.changes_of_sized hsized (after_goesThrough session [request])).2
    exact (step_declaredSince hsized request id).trans (ih hlater)

/-- A created scope has the names reserved that it was created with. -/
theorem step_addScope {session : Session} {parent : ScopeId} {root : NodeId} {kind : Scope.Kind}
    {reserved : List NameRef} {module : Option ModuleId} {id : ScopeId}
    (hcreated : (session.step (.edit (.addScope parent root kind reserved module))).1 =
      .ok (.handle id)) : ∃ scope,
    (session.step (.edit (.addScope parent root kind reserved module))).2.forest.scopes[id.raw]? =
        some scope ∧
      scope.index = ∅ ∧
      ∀ name, name ∈ scope.reserved ↔ name ∈ (session.forest.names.names reserved).1 := by
  rw [step, serve, run_map_onForest] at hcreated ⊢
  obtain ⟨outcome, hrun, hid⟩ := Except.map_eq_ok_iff.mp hcreated
  obtain ⟨rfl, outer, hscope⟩ := Forest.eq_of_run_addScope (Prod.ext hrun rfl)
  obtain rfl : ⟨session.forest.scopes.size⟩ = id := Handle.ext (Answer.number.inj hid)
  refine ⟨_, hscope, rfl, fun name => ?_⟩
  exact Std.ExtTreeSet.mem_ofList.trans List.contains_iff_mem

theorem validity_inj {verdict other : Except BuildError Unit} :
    Answer.validity verdict = .validity other ↔ verdict = other := by
  cases verdict <;> cases other <;> simp [Answer.validity]

/-- Validation of a scope leaves the session as it is. -/
theorem step_tryValidate_iff {session : Session} {id : ScopeId}
    {verdict : Except BuildError Unit} :
    session.step (.ask (.tryValidate id)) = (.ok (.validity verdict), session) ↔
      session.forest.tryValidate id = .ok verdict := by
  rw [step, serve, ask, run_map_onForest, Forest.run_tryValidating, Prod.mk.injEq,
    and_iff_left rfl]
  cases session.forest.tryValidate id with
  | error fault => simp [Except.map]
  | ok answer => simp [Except.map, validity_inj]

theorem step_tryValidateAll {session : Session} {verdict : Except BuildError Unit}
    (hverdict : session.forest.tryValidateAll = .ok verdict) :
    session.step (.ask .tryValidateAll) = (.ok (.validity verdict), session) := by
  rw [step, serve, ask, run_map_onForest, Forest.tryValidatingAll_keeps]
  show (Answer.validity <$> session.forest.tryValidateAll, session) = _
  rw [hverdict]
  rfl

/-- Whatever is asked of a session, a scope has those names reserved that it was created with and
that were not declared in it since. Validation of the scope answers if there are any, lists exactly
their spellings, and changes nothing. Validation of all scopes tells of the first that is not
complete. -/
theorem reserved_after (root : NodeId) (types : Prescribed TypeTable) (before since : List Request)
    {parent : ScopeId} {node : NodeId} {kind : Scope.Kind} {reserved : List NameRef}
    {module : Option ModuleId} {id : ScopeId}
    (hcreated : (((start root types).after before).step
      (.edit (.addScope parent node kind reserved module))).1 = .ok (.handle id)) :
    let session := (start root types).after before
    let created := (session.step (.edit (.addScope parent node kind reserved module))).2
    let later := created.after since
    let names := (session.forest.names.names reserved).1
    let declared := created.declares id since
    (∃ scope, later.forest.scopes[id.raw]? = some scope ∧ ∀ name,
      (name ∈ scope.index ↔ name ∈ declared) ∧
      (name ∈ scope.reserved ↔ name ∈ names ∧ name ∉ declared)) ∧
    (∃ verdict, later.step (.ask (.tryValidate id)) = (.ok (.validity verdict), later) ∧
      (verdict = .ok () ↔ ∀ name ∈ names, name ∈ declared) ∧
      ∀ error, verdict = .error error → ∃ texts, error = .reservedNamesRemain id texts ∧
        later.forest.Lists (fun name => name ∈ names ∧ name ∉ declared) texts) ∧
    ∃ verdict, later.step (.ask .tryValidateAll) = (.ok (.validity verdict), later) ∧
      (verdict = .ok () ↔ ∀ i < later.forest.scopes.size,
        later.step (.ask (.tryValidate ⟨i⟩)) = (.ok .valid, later)) ∧
      ∀ error, verdict = .error error → ∃ i < later.forest.scopes.size,
        later.step (.ask (.tryValidate ⟨i⟩)) = (.ok (.refused error), later) ∧
          ∀ j < i, later.step (.ask (.tryValidate ⟨j⟩)) = (.ok .valid, later) := by
  intro session created later names declared
  have hsized : created.forest.Sized := by
    have hafter := built_after root types
      (before ++ [.edit (.addScope parent node kind reserved module)])
    rw [after, List.foldl_append] at hafter
    exact hafter.sized
  have hbuilt : later.forest.Built := by
    have hafter := built_after root types
      (before ++ .edit (.addScope parent node kind reserved module) :: since)
    rwa [after, List.foldl_append, List.foldl_cons] at hafter
  obtain ⟨first, hfirst, hindex, hreserved⟩ := step_addScope hcreated
  obtain ⟨scope, hscope, hsince⟩ := after_declaredSince hsized since id first hfirst
  have haccount : ∀ name, (name ∈ scope.index ↔ name ∈ declared) ∧
      (name ∈ scope.reserved ↔ name ∈ names ∧ name ∉ declared) := by
    intro name
    rw [(hsince name).1, (hsince name).2, hindex, hreserved]
    exact ⟨by simp [declared], Iff.rfl⟩
  refine ⟨⟨scope, hscope, haccount⟩, ?_, ?_⟩
  · obtain ⟨verdict, hverdict, hvalid, hremain⟩ := hbuilt.tryValidate_spec hscope
    refine ⟨verdict, step_tryValidate_iff.mpr hverdict, hvalid.trans ?_, ?_⟩
    · simp only [haccount, not_and, not_not]
    · simpa only [haccount] using hremain
  · obtain ⟨verdict, hverdict, hvalid, hfirst⟩ := hbuilt.tryValidateAll_spec
    simp only [← step_tryValidate_iff] at hvalid hfirst
    exact ⟨verdict, step_tryValidateAll hverdict, hvalid, hfirst⟩

/-- A block that reserves two names. -/
def reservingBlock : Request :=
  .edit (.addScope ⟨0⟩ ⟨1⟩ .block [.spelled "b", .spelled "a"] none)

/-- One of the names is declared in the block, and once more in vain, the other one elsewhere. -/
def halfDeclared : List Request :=
  [.edit (.declare ⟨0⟩ (.spelled "a") ⟨none, none, none, false⟩),
    .edit (.declare ⟨1⟩ (.spelled "b") ⟨none, none, none, false⟩), .ask (.tryValidate ⟨1⟩),
    .edit (.tryDeclare ⟨1⟩ (.spelled "b") ⟨none, none, none, false⟩)]

/-- So the other one remains. -/
theorem reserved_after_of_halfDeclared :
    let later := (((start ⟨0⟩ (.plain .basic)).step reservingBlock).2).after halfDeclared
    ∃ texts, later.step (.ask (.tryValidate ⟨1⟩)) =
        (.ok (.refused (.reservedNamesRemain ⟨1⟩ texts)), later) ∧
      later.forest.Lists (fun name => name ∈ [⟨5⟩, ⟨6⟩] ∧ name ∉ [⟨5⟩]) texts := by
  let session := start ⟨0⟩ (.plain .basic)
  let created := (session.step reservingBlock).2
  have hcreated : (session.step reservingBlock).1 = .ok (.handle (⟨1⟩ : ScopeId)) := by
    have hadded : ((Forest.perform (.addScope ⟨0⟩ ⟨1⟩ .block [.spelled "b", .spelled "a"]
        none)).run.run session.forest).1 = .ok (.added ⟨1⟩) := by decide +kernel
    rw [step, reservingBlock, serve, run_map_onForest, hadded]
    rfl
  have hnames : (session.forest.names.names [.spelled "b", .spelled "a"]).1 = [⟨5⟩, ⟨6⟩] := by
    decide +kernel
  have hdeclared : created.declares ⟨1⟩ halfDeclared = [⟨5⟩] := by decide +kernel
  obtain ⟨_, ⟨verdict, hstep, hvalid, hremain⟩, _⟩ :=
    reserved_after ⟨0⟩ (.plain .basic) [] halfDeclared hcreated
  change verdict = .ok () ↔ ∀ name ∈ (session.forest.names.names [.spelled "b", .spelled "a"]).1,
    name ∈ created.declares ⟨1⟩ halfDeclared at hvalid
  rw [hnames, hdeclared] at hvalid
  cases verdict with
  | ok complete => exact absurd (hvalid.mp rfl) (by decide)
  | error error =>
    obtain ⟨texts, rfl, hlists⟩ := hremain error rfl
    refine ⟨texts, hstep, ?_⟩
    rw [← hnames, ← hdeclared]
    exact hlists

end Session
end FlowTyping
