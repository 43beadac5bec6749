import FlowTyping.Proofs.Forest.WellFormed
import FlowTyping.Session

/-!
# Forests of sessions

Whatever is asked of a session, its forest changes by the steps by which forests are built, and by
no others. So it is well-formed at all times, and what is in it once keeps its place.
-/
namespace FlowTyping
namespace Session
open Attempt

def Builds (session later : Session) : Prop :=
  Relation.ReflTransGen Forest.Change session.forest later.forest

/-- The forest of a later session is reached from that of an earlier one by steps of a relation. -/
def Through (step : Forest → Forest → Prop) (session later : Session) : Prop :=
  Relation.ReflTransGen step session.forest later.forest

variable {α : Type} {step : Forest → Forest → Prop}

theorem Through.of_steps {session later : Session}
    (hsteps : Relation.ReflTransGen (Through step) session later) : Through step session later := by
  induction hsteps with
  | refl => exact .refl
  | tail _ hthrough ih => exact ih.trans hthrough

theorem onForest_goesBy {inner : Attempt Fault Forest α} (hinner : GoesBy step inner) :
    GoesBy (Through step) (onForest inner) :=
  fun session => .single (hinner session.forest)

theorem onTypes_goesBy (inner : Attempt Fault (Prescribed TypeTable) α) :
    GoesBy (Through step) (onTypes inner) :=
  fun _ => .single .refl

theorem onStore_goesBy (inner : Attempt Fault FlowStore α) :
    GoesBy (Through step) (onStore inner) :=
  fun _ => .single .refl

theorem onLattice_goesBy (inner : Attempt UnknownType (Prescribed TypeTable) α) :
    GoesBy (Through step) (onLattice inner) :=
  onTypes_goesBy _

theorem onTable_goesBy (inner : Attempt UnknownType TypeTable α) :
    GoesBy (Through step) (onTable inner) :=
  onLattice_goesBy _

theorem askTypes_goesBy (request : TypeRequest) : GoesBy (Through step) (askTypes request) := by
  cases request with
  | function receiver => exact (onTable_goesBy _).map _
  | object prototype => exact (onTable_goesBy _).map _
  | union types => exact (onTable_goesBy _).map _
  | addClass superclass => exact (onTable_goesBy _).bind fun _ => goesBy_pure _
  | leastSupertype a b => exact (onLattice_goesBy _).map _
  | joinSlots a b => exact (onLattice_goesBy _).map _
  | sameType a b => exact goesBy_reading _
  | sameSlots a b => exact goesBy_reading _
  | has trait type => exact goesBy_reading _
  | related relation type => exact goesBy_reading _

theorem takeStep_goesBy (taken : FlowStep) : GoesBy (Through step) (takeStep taken) := by
  have hget : GoesBy (Through step) (get : Attempt Fault Session Session) := fun _ => .single .refl
  have hput : ∀ store : FlowStore, GoesBy (Through step)
      (modify fun session => { session with store := store } : Attempt Fault Session PUnit) :=
    fun _ _ => .single .refl
  exact hget.bind fun session => (onTypes_goesBy _).bind fun made =>
    (hput made.2.1).bind fun _ => goesBy_pure _

section
variable (hinterns : Forest.Interns step)
include hinterns

theorem intern_goesBy (name : NameRef) : GoesBy (Through step) (onForest (Forest.intern name)) :=
  onForest_goesBy (hinterns.intern_goesBy name)

theorem internAll_goesBy (names : List NameRef) :
    GoesBy (Through step) (onForest (Forest.internAll names)) :=
  onForest_goesBy (hinterns.internAll_goesBy names)

theorem ask_goesBy (query : Query) : GoesBy (Through step) (ask query) := by
  cases query with
  | global => exact goesBy_pure _
  | ownVariable scope name | resolve scope name | declaredType scope name
  | eventualScope scope name | sameBinding source target name =>
    exact (intern_goesBy hinterns name).bind fun _ => goesBy_reading _
  | resolveAll scopes names => exact (internAll_goesBy hinterns names).bind fun _ => goesBy_reading _
  | validate scope =>
    exact (onForest_goesBy (Forest.validating_keeps scope).goesBy).bind fun _ => goesBy_pure _
  | tryValidate scope => exact (onForest_goesBy (Forest.tryValidating_keeps scope).goesBy).map _
  | tryValidateAll => exact (onForest_goesBy Forest.tryValidatingAll_keeps.goesBy).map _
  | _ => exact goesBy_reading _

theorem grow_goesBy (flow : Flow) (times : Nat) (links : List Link) :
    GoesBy (Through step) (grow flow times links) := by
  apply goesBy_foldlM
  intro flow round
  apply goesBy_foldlM
  intro flow link
  apply (onStore_goesBy _).bind
  intro stamp
  cases link with
  | none => exact goesBy_pure _
  | some link => exact (intern_goesBy hinterns _).bind fun _ => goesBy_pure _

theorem compare_goesBy (query : FlowQuery) : GoesBy (Through step) (compare query) := by
  cases query with
  | slot key name => exact (intern_goesBy hinterns name).bind fun _ => goesBy_reading _
  | slots key names => exact (internAll_goesBy hinterns names).bind fun _ => goesBy_reading _
  | _ => exact goesBy_reading _

end

def Request.IsBuilding : Request → Prop
  | .edit _ | .nest _ _ _ _ | .declareNumbered _ _ _ _ => True
  | _ => False

/-- All other requests only intern names. -/
theorem serve_goesBy_interning (hinterns : Forest.Interns step) {request : Request}
    (hrequest : ¬request.IsBuilding) : GoesBy (Through step) (serve request) := by
  cases request with
  | edit edit => exact absurd trivial hrequest
  | nest parent root kind count => exact absurd trivial hrequest
  | declareNumbered scope stem count details => exact absurd trivial hrequest
  | ask query => exact ask_goesBy hinterns query
  | types request => exact askTypes_goesBy request
  | flow taken =>
    apply (takeStep_goesBy taken).bind
    intro made
    cases taken <;> exact goesBy_pure _
  | refine flow name type =>
    exact (intern_goesBy hinterns name).bind fun _ =>
      (takeStep_goesBy _).bind fun _ => goesBy_pure _
  | chain key target times links =>
    exact (goesBy_reading _).bind fun flow => (grow_goesBy hinterns flow times links).bind fun _ =>
      (onStore_goesBy _).bind fun _ => goesBy_pure _
  | parent flow target => exact (onStore_goesBy _).map _
  | drop flow => exact (onStore_goesBy _).map _
  | compare query => exact compare_goesBy hinterns query

/-- No request changes the forest but by the steps by which forests are built. -/
theorem serve_goesBy (request : Request) : GoesBy (Through Forest.SizedChange) (serve request) := by
  cases request with
  | edit edit => exact (onForest_goesBy (Forest.perform_goesBy edit)).map _
  | nest parent root kind count =>
    exact (onForest_goesBy (Forest.nest_goesBy parent root kind count)).map _
  | declareNumbered scope stem count details =>
    exact (onForest_goesBy (Forest.declareNumbered_goesBy scope stem count details)).map _
  | _ => exact serve_goesBy_interning Forest.change_interns not_false

theorem after_goesThrough (session : Session) (requests : List Request) :
    Through Forest.SizedChange session (session.after requests) := by
  induction requests generalizing session with
  | nil => exact .refl
  | cons request requests ih =>
    exact (Through.of_steps (serve_goesBy request session)).trans (ih _)

theorem after_builds {session : Session} (hsized : session.forest.Sized)
    (requests : List Request) : Builds session (session.after requests) :=
  (Forest.changes_of_sized hsized (after_goesThrough session requests)).1

/-- The forest of a session is one that edits alone could have made. -/
theorem built_after (root : NodeId) (types : Prescribed TypeTable) (requests : List Request) :
    ((start root types).after requests).forest.Built := by
  have hsized : (start root types).forest.Sized := Forest.sized_ofRoot .initial root
  exact .of_reachable (after_builds hsized requests)

/-- Whatever was asked of a session, its forest is well-formed, and whatever is asked of it then,
what is in the forest keeps its place. -/
theorem after_wellFormed (root : NodeId) (types : Prescribed TypeTable)
    (requests later : List Request) :
    let session := (start root types).after requests
    session.forest.WellFormed ∧ (session.after later).forest.Extends session.forest :=
  ⟨(built_after root types requests).wellFormed,
    Forest.extends_of_changes (after_builds (built_after root types requests).sized later)⟩

end Session
end FlowTyping
