import FlowTyping.Flow.Store
import FlowTyping.Forest.Edit

/-!
# Requests and answers

What can be asked of a session, and what comes back. A request gives names by spelling or by number;
they are interned before the request is looked at.
-/
namespace FlowTyping.Session

/-- A question about the forest, some of them with the help of the lattice. -/
inductive Query where
  | global
  | scope (id : ScopeId)
  | var (id : VarId)
  | declarations (scope : ScopeId)
  | unboundUntyped (scope : ScopeId)
  | ancestors (scope : ScopeId)
  | commonAncestor (a b : ScopeId)
  | visibleNames (scope : ScopeId)
  | ownVariable (scope : ScopeId) (name : NameRef)
  | resolve (scope : ScopeId) (name : NameRef)
  | resolveAll (scopes : List ScopeId) (names : List NameRef)
  | declaredType (scope : ScopeId) (name : NameRef)
  | eventualScope (scope : ScopeId) (name : NameRef)
  | sameBinding (source target : ScopeId) (name : NameRef)
  | findName (spelling : String)
  | validate (scope : ScopeId)
  | tryValidate (scope : ScopeId)
  | tryValidateAll
  | thisType (scope : ScopeId)
  | ownsImplicit (scope : ScopeId) (var : Implicit)
  | makeImplicit (scope : ScopeId) (var : Implicit)
  | resolveImplicit (scope : ScopeId) (var : Implicit)
deriving DecidableEq

/-- A request to the lattice. The first four add to the table of shapes itself. -/
inductive TypeRequest where
  | function (receiver : Option TypeId)
  | object (prototype : Option TypeId)
  | union (types : List TypeId)
  | addClass (superclass : Option TypeId)
  | leastSupertype (a b : TypeId)
  | sameType (a b : TypeId)
  | joinSlots (a b : Option TypeId)
  | sameSlots (a b : Option TypeId)
  | has (trait : Trait) (type : TypeId)
  | related (relation : Relation) (type : TypeId)
deriving DecidableEq

/-- A question about flow scopes. -/
inductive FlowQuery where
  | report (flow : String)
  | identical (a b : String)
  | agrees (a b : String)
  | slot (flow : String) (name : NameRef)
  | slots (flow : String) (names : List NameRef)
  | implicitSlot (flow : String) (var : Implicit)
  | uniqueRefinement (flow other : String)
deriving DecidableEq

/-- One step of a chain: a child layer, or the refinement of a slot. -/
abbrev Link := Option (NameRef × TypeId)

/-- A request to a session. -/
inductive Request where
  | edit (edit : Edit)
  | nest (parent : ScopeId) (root : NodeId) (kind : Scope.Kind) (count : Nat)
  | declareNumbered (scope : ScopeId) (stem : String) (count : Nat) (details : Variable.Details)
  | ask (query : Query)
  | types (request : TypeRequest)
  | flow (step : FlowStep)
  | refine (flow : String) (name : NameRef) (type : TypeId)
  | chain (flow target : String) (times : Nat) (links : List Link)
  | parent (flow target : String)
  | drop (flow : String)
  | compare (query : FlowQuery)
deriving DecidableEq

/-- What a request brings. -/
inductive Answer where
  | absent
  | valid
  | refused (error : BuildError)
  | flag (holds : Bool)
  | number (raw : Nat)
  | name (name : Name)
  | list (answers : List Answer)
  | variable (found : Variable)
  | implicit (binding : Implicit.Binding)
  | scope (scope : Scope) (names : List Name)
  | flow (flow : Flow)
  | report (flow : Flow) (isBottom : Bool)
  | chained (depth slots : Nat)
  | joined (flow : Flow) (calls : List (TypeId × TypeId × TypeId))

namespace Answer

def handle {entity : Entity} (handle : Handle entity) : Answer := .number handle.raw

def optional {α : Type} (present : α → Answer) : Option α → Answer
  | some value => present value
  | none => .absent

def several {α : Type} (each : α → Answer) (values : List α) : Answer := .list (values.map each)

def validity : Except BuildError Unit → Answer
  | .ok () => .valid
  | .error error => .refused error

def ofOutcome : Edit.Outcome → Answer
  | .interned id => handle id
  | .added id => handle id
  | .declared id => handle id
  | .refused error => .refused error
  | .typed _ => .absent
  | .changed now => .variable now

end Answer
end FlowTyping.Session
