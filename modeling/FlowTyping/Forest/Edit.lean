import FlowTyping.Forest.Building
import FlowTyping.Name.Reference

/-!
# Edits of a forest

The steps by which a forest is built, as data. The names of an edit are interned before it is tried.
-/
namespace FlowTyping

/-- A step in the building of a forest. -/
inductive Edit where
  | intern (name : NameRef)
  | addBottom (root : NodeId)
  | addScope (parent : ScopeId) (root : NodeId) (kind : Scope.Kind) (reserved : List NameRef)
      (module : Option ModuleId)
  | declare (scope : ScopeId) (name : NameRef) (details : Variable.Details)
  | tryDeclare (scope : ScopeId) (name : NameRef) (details : Variable.Details)
  | setRootType (scope : ScopeId) (type : Option TypeId)
  | setType (var : VarId) (type : Option TypeId)
deriving DecidableEq

/-- What an edit did. -/
inductive Edit.Outcome where
  | interned (name : Name)
  | added (scope : ScopeId)
  | declared (var : VarId)
  | refused (error : BuildError)
  | typed (scope : ScopeId)
  | changed (now : Variable)
deriving DecidableEq

namespace Forest

def intern (name : NameRef) : Attempt Fault Forest Name := .always fun forest =>
  let (name, names) := forest.names.name name
  (name, { forest with names := names })

/-- Interns several names in the table of a forest, from left to right. -/
def internAll (names : List NameRef) : Attempt Fault Forest (List Name) := .always fun forest =>
  let (names, table) := forest.names.names names
  (names, { forest with names := table })

/-- Declares a variable whose name is expected to be free. -/
def declaring (scope : ScopeId) (name : NameRef) (details : Variable.Details) :
    Attempt Fault Forest VarId := do
  binding scope (← intern name) details

/-- Declares a variable, or reports why its name cannot be declared. -/
def tryDeclaring (scope : ScopeId) (name : NameRef) (details : Variable.Details) :
    Attempt Fault Forest (Except BuildError VarId) := do
  tryBinding scope (← intern name) details

def perform : Edit → Attempt Fault Forest Edit.Outcome
  | .intern name => .interned <$> intern name
  | .addBottom root => .added <$> addingBottom root
  | .addScope parent root kind reserved module => do
    let reserved ← internAll reserved
    .added <$> adding parent root kind reserved module
  | .declare scope name details => .declared <$> declaring scope name details
  | .tryDeclare scope name details => do
    match ← tryDeclaring scope name details with
    | .ok id => return .declared id
    | .error error => return .refused error
  | .setRootType scope type => do
    editScope scope fun within => { within with rootType := type }
    return .typed scope
  | .setType id type => do
    editVar id fun found => { found with type := type }
    .changed <$> .reading (·.var id)

/-- The forest after a list of edits, whether they succeed or not. -/
def after (forest : Forest) (edits : List Edit) : Forest :=
  edits.foldl (fun forest edit => ((perform edit).run.run forest).2) forest

/-- Adds `count` scopes, each inside the one before it. Their root nodes are numbered on from the
first, and the innermost scope is the answer. -/
def nest (parent : ScopeId) (root : NodeId) (kind : Scope.Kind) (count : Nat) :
    Attempt Fault Forest ScopeId :=
  (List.range count).foldlM (fun parent i => adding parent (root.after i) kind [] none) parent

/-- Declares `stem0`, `stem1`, … alike, up to the first that fails; answers the last variable. -/
def declareNumbered (scope : ScopeId) (stem : String) (count : Nat) (details : Variable.Details) :
    Attempt Fault Forest (Option VarId) :=
  (List.range count).foldlM
    (fun _ i => some <$> declaring scope (.spelled (stem ++ toString i)) details) none

end Forest
end FlowTyping
