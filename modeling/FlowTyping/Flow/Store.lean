import FlowTyping.Flow.Compaction
import FlowTyping.Flow.Join
import FlowTyping.Flow.ScopeChange

/-!
# Flow scopes by key

A store keeps flow scopes under keys and hands out the stamps of new layers. A step puts its result
under a key, in the place of whatever was kept there.
-/
namespace FlowTyping

/-- Flow scopes by key, and the stamp for the next new layer. -/
structure FlowStore where
  flows : Std.ExtTreeMap String Flow
  nextStamp : Nat

/-- A step on flow scopes that are kept under keys. -/
inductive FlowStep where
  | entry (scope : ScopeId) (target : String)
  | child (flow target : String)
  | enter (flow : String) (scope : ScopeId) (target : String)
  | copy (flow target : String)
  | compact (flow target : String)
  | refine (flow : String) (name : Name) (type : TypeId)
  | join (flows : List String) (target : String)
deriving DecidableEq

/-- The key under which a step puts its result. -/
def FlowStep.target : FlowStep → String
  | entry _ key | child _ key | enter _ _ key | copy _ key | compact _ key | join _ key => key
  | refine flow _ _ => flow

namespace FlowStore

def empty : FlowStore := ⟨∅, 0⟩

def find (store : FlowStore) (key : String) : Except Fault Flow :=
  match store.flows[key]? with
  | some flow => .ok flow
  | none => .error (.unknownFlow key)

/-- Keeps a flow scope under a key. Its stamp is not used again. -/
def put (store : FlowStore) (key : String) (flow : Flow) : FlowStore :=
  ⟨store.flows.insert key flow, store.nextStamp + 1⟩

def drop (store : FlowStore) (key : String) : Bool × FlowStore :=
  (store.flows.contains key, { store with flows := store.flows.erase key })

variable {Λ : Type} [TypeLattice Λ]

def result (store : FlowStore) (forest : Forest) : FlowStep → Attempt Fault Λ Flow
  | .entry scope _ => return .entry store.nextStamp scope
  | .child flow _ => .answer do return (← store.find flow).child store.nextStamp
  | .enter flow scope _ => .answer do (← store.find flow).enter store.nextStamp forest scope
  | .copy flow _ => .answer (store.find flow)
  | .compact flow _ => .answer do return (← store.find flow).compact store.nextStamp
  | .refine flow name type =>
    .answer do return (← store.find flow).refine store.nextStamp name type
  | .join flows _ => do
    Flow.join store.nextStamp forest (← Attempt.answer (flows.mapM store.find))

/-- Takes a step; answers the flow scope that it made, with the store that keeps it. -/
def perform (store : FlowStore) (forest : Forest) (step : FlowStep) :
    Attempt Fault Λ (Flow × FlowStore) := do
  let flow ← store.result forest step
  return (flow, store.put step.target flow)

/-- Keeps the chain below the top layer of a flow scope under a key, if there is one. -/
def keepingParent (flow target : String) : Attempt Fault FlowStore (Option Flow) := do
  match (← Attempt.reading (·.find flow)).parent? with
  | some parent =>
    modify (·.put target parent)
    return some parent
  | none => return none

end FlowStore
end FlowTyping
