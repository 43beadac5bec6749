import FlowTyping.Flow.Comparison
import FlowTyping.Session.Request
import FlowTyping.TypeLattice.Prescribed
import FlowTyping.TypeLattice.Recorded
import FlowTyping.TypeLattice.Structural

/-!
# Sessions

A session holds a forest, a lattice and flow scopes under keys, and serves requests one after the
other. A request works on them in place, and what it has written by the time it fails stays written.
-/
namespace FlowTyping

/-- The state of a session. -/
structure Session where
  forest : Forest
  types : Prescribed TypeTable
  store : FlowStore

namespace Session
open TypeLattice

def start (root : NodeId) (types : Prescribed TypeTable) : Session :=
  ⟨.ofRoot .initial root, types, .empty⟩

def onForest {α : Type} (inner : Attempt Fault Forest α) : Attempt Fault Session α :=
  inner.within (·.forest) fun forest session => { session with forest := forest }

def onTypes {α : Type} (inner : Attempt Fault (Prescribed TypeTable) α) : Attempt Fault Session α :=
  inner.within (·.types) fun types session => { session with types := types }

def onLattice {α : Type} (inner : Attempt UnknownType (Prescribed TypeTable) α) :
    Attempt Fault Session α :=
  onTypes (inner.failing UnknownType.fault)

def onTable {α : Type} (inner : Attempt UnknownType TypeTable α) : Attempt Fault Session α :=
  onLattice (Prescribed.below inner)

def onStore {α : Type} (inner : Attempt Fault FlowStore α) : Attempt Fault Session α :=
  inner.within (·.store) fun store session => { session with store := store }

def ask : Query → Attempt Fault Session Answer
  | .global => return .handle Forest.global
  | .scope id => .reading fun session => do
    return .scope (← session.forest.scope id) (← session.forest.namesOf id)
  | .var id => .reading fun session => .variable <$> session.forest.var id
  | .declarations scope => .reading fun session =>
    .several .variable <$> session.forest.variablesOf scope
  | .unboundUntyped scope => .reading fun session =>
    .several (.name ·.name) <$> session.forest.unboundUntyped scope
  | .ancestors scope => .reading fun session =>
    .several .handle <$> session.forest.ancestors scope
  | .commonAncestor a b => .reading fun session =>
    .optional .handle <$> session.forest.commonAncestor a b
  | .visibleNames scope => .reading fun session =>
    .several .name <$> session.forest.visibleNames scope
  | .ownVariable scope name => do
    let name ← onForest (Forest.intern name)
    .reading fun session => .optional .variable <$> session.forest.ownVariable? scope name
  | .resolve scope name => do
    let name ← onForest (Forest.intern name)
    .reading fun session => .optional .variable <$> session.forest.resolve scope name
  | .resolveAll scopes names => do
    let names ← onForest (Forest.internAll names)
    .reading fun session => .list <$> scopes.mapM fun scope =>
      .list <$> names.mapM fun name =>
        .optional (.handle ·.id) <$> session.forest.resolve scope name
  | .declaredType scope name => do
    let name ← onForest (Forest.intern name)
    .reading fun session => .optional .handle <$> session.forest.declaredType scope name
  | .eventualScope scope name => do
    let name ← onForest (Forest.intern name)
    .reading fun session => .optional .handle <$> session.forest.eventualScope scope name
  | .sameBinding source target name => do
    let name ← onForest (Forest.intern name)
    .reading fun session => .flag <$> session.forest.sameBinding source target name
  | .findName spelling => .reading fun session =>
    .ok (.optional .handle (session.forest.names.find? spelling))
  | .validate scope => do
    onForest (Forest.validating scope)
    return .valid
  | .tryValidate scope => .validity <$> onForest (Forest.tryValidating scope)
  | .tryValidateAll => .validity <$> onForest Forest.tryValidatingAll
  | .thisType scope => .reading fun session =>
    .optional .handle <$> session.forest.thisType session.types scope
  | .ownsImplicit scope var => .reading fun session =>
    .flag <$> session.forest.ownsImplicit scope var
  | .makeImplicit scope var => .reading fun session =>
    .optional .implicit <$> session.forest.makeImplicit session.types scope var
  | .resolveImplicit scope var => .reading fun session =>
    .optional .implicit <$> session.forest.resolveImplicit session.types scope var

def askTypes : TypeRequest → Attempt Fault Session Answer
  | .function receiver => .handle <$> onTable (.always (·.function receiver))
  | .object prototype => .handle <$> onTable (.always (·.object prototype))
  | .union types => .handle <$> onTable (TypeTable.merging types)
  | .addClass superclass => do
    let (constructor, instances) ← onTable (.always (·.addClass superclass))
    return .several .handle [constructor, instances]
  | .leastSupertype a b => .handle <$> onLattice (TypeLattice.leastSupertype a b)
  | .sameType a b => .reading fun session => .ok (.flag (TypeLattice.sameType session.types a b))
  | .joinSlots a b => .optional .handle <$> onLattice (TypeLattice.joinSlots a b)
  | .sameSlots a b => .reading fun session =>
    .ok (.flag (TypeLattice.sameSlots session.types a b))
  | .has trait type => .reading fun session => .flag <$> TypeLattice.has session.types trait type
  | .related relation type => .reading fun session =>
    .optional .handle <$> TypeLattice.related session.types relation type

/-- Takes a step on the flow scopes; answers the flow scope that was made and the least supertypes
that were asked for on the way. -/
def takeStep (step : FlowStep) :
    Attempt Fault Session (Flow × List (TypeId × TypeId × TypeId)) := do
  let session ← get
  let (flow, store, calls) ← onTypes <|
    Attempt.within Recorded.start (fun record _ => record.types) do
      let (flow, store) ← session.store.perform session.forest step
      return (flow, store, (← get : Recorded (Prescribed TypeTable)).calls)
  modify fun session => { session with store := store }
  return (flow, calls)

/-- Grows a chain from a flow scope by a list of links, several times over. Where a name of a link
is spelled with a placeholder, the number of the round stands for it. -/
def grow (flow : Flow) (times : Nat) (links : List Link) : Attempt Fault Session Flow :=
  (List.range times).foldlM
    (fun flow round => links.foldlM
      (fun flow link => do
        let stamp ← onStore (.always fun store =>
          (store.nextStamp, { store with nextStamp := store.nextStamp + 1 }))
        match link with
        | none => return flow.child stamp
        | some (name, type) =>
          return flow.refine stamp (← onForest (Forest.intern (name.inRound round))) type)
      flow)
    flow

def compare : FlowQuery → Attempt Fault Session Answer
  | .report key => .reading fun session => do
    let flow ← session.store.find key
    return .report flow (← flow.isBottom session.forest)
  | .identical a b => .reading fun session => do
    return .flag ((← session.store.find a) = (← session.store.find b))
  | .agrees a b => .reading fun session => do
    .flag <$> Flow.agrees session.types session.forest (← session.store.find a)
      (← session.store.find b)
  | .slot key name => do
    let name ← onForest (Forest.intern name)
    .reading fun session => do
      .optional .handle <$> (← session.store.find key).slotType session.forest name
  | .slots key names => do
    let names ← onForest (Forest.internAll names)
    .reading fun session => do
      let flow ← session.store.find key
      .list <$> names.mapM fun name => .optional .handle <$> flow.slotType session.forest name
  | .implicitSlot key var => .reading fun session => do
    .optional .handle <$>
      (← session.store.find key).implicitSlotType session.forest session.types var
  | .uniqueRefinement key other => .reading fun session => do
    let slot := (← session.store.find key).uniqueRefinement? (← session.store.find other)
    return .optional (fun (name, type) => .list [.name name, .handle type]) slot

def serve : Request → Attempt Fault Session Answer
  | .edit edit => .ofOutcome <$> onForest (Forest.perform edit)
  | .nest parent root kind count => .handle <$> onForest (Forest.nest parent root kind count)
  | .declareNumbered scope stem count details =>
    .optional .handle <$> onForest (Forest.declareNumbered scope stem count details)
  | .ask query => ask query
  | .types request => askTypes request
  | .flow step => do
    let (flow, calls) ← takeStep step
    match step with
    | .join _ _ => return .joined flow calls
    | _ => return .flow flow
  | .refine flow name type => do
    let name ← onForest (Forest.intern name)
    return .flow (← takeStep (.refine flow name type)).1
  | .chain key target times links => do
    let flow ← Attempt.reading fun session : Session => session.store.find key
    let grown ← grow flow times links
    onStore (.always fun store => ((), store.put target grown))
    return .chained grown.depth grown.refinements.size
  | .parent flow target => .optional .flow <$> onStore (FlowStore.keepingParent flow target)
  | .drop flow => .flag <$> onStore (.always (·.drop flow))
  | .compare query => compare query

/-- Serves a request; answers the answer or the fault, with the session afterwards. -/
def step (session : Session) (request : Request) : Except Fault Answer × Session :=
  (serve request).run.run session

/-- The session after a list of requests, whether they succeed or not. -/
def after (session : Session) (requests : List Request) : Session :=
  requests.foldl (fun session request => (session.step request).2) session

end Session
end FlowTyping
