import FlowTyping.Attempt
import FlowTyping.Forest
import FlowTyping.Name.Qualified

/-!
# Building a forest

Scopes are created from the outside in, each possibly with simple names reserved for declarations to
come. A declaration takes its name out of the reserved names of its scope, and a scope is complete
when none are left. The tables are changed in place, by one write after the other, and no write is
taken back where a later step fails.
-/
namespace FlowTyping.Forest

/-- The number of what is made next, after `count` others of its sort. -/
def number (counted : Counted) (count : Nat) : Except Fault Nat :=
  if count < Handle.capacity then .ok count else .error (.exceeded counted)

def editScope (id : ScopeId) (edit : Scope → Scope) : Attempt Fault Forest Unit :=
  (Attempt.editEntry (.missing .scope id.raw) id.raw edit).within (·.scopes)
    fun scopes forest => { forest with scopes := scopes }

def editVar (id : VarId) (edit : Variable → Variable) : Attempt Fault Forest Unit :=
  (Attempt.editEntry (.missing .var id.raw) id.raw edit).within (·.vars)
    fun vars forest => { forest with vars := vars }

/-- The scopes around a scope with a given parent, innermost first. -/
def around (forest : Forest) : Option ScopeId → Except Fault (List ScopeId)
  | some parent => do return parent :: (← forest.scope parent).outer
  | none => .ok []

/-- Adds a scope at the end of the table, inside a parent or as a root. -/
def pushing (parent : Option ScopeId) (root : NodeId) (kind : Scope.Kind) (reserved : NameSet)
    (module : Option ModuleId) : Attempt Fault Forest ScopeId := do
  let id : ScopeId := ⟨← Attempt.reading fun forest => number .scope forest.scopes.size⟩
  let outer ← Attempt.reading (·.around parent)
  modify fun forest =>
    { forest with scopes := forest.scopes.push (.unbuilt outer kind root reserved module) }
  return id

def addingBottom (root : NodeId) : Attempt Fault Forest ScopeId := pushing none root .bottom ∅ none

/-- Checks that names are simple. The first that is not, or has no spelling, decides the fault. -/
def requireSimple (forest : Forest) : List Name → Except Fault Unit
  | [] => .ok ()
  | name :: names => do
    if isQualified (← forest.spelling name) then throw .qualifiedReserved
    forest.requireSimple names

def adding (parent : ScopeId) (root : NodeId) (kind : Scope.Kind) (reserved : List Name)
    (module : Option ModuleId) : Attempt Fault Forest ScopeId := do
  if kind.isRoot then throw (.parentedRoot kind parent)
  let around ← Attempt.reading (·.scope parent)
  if around.kind = .bottom then throw (.childOfBottom parent)
  if around.root = root then throw (.sharedRoot root parent)
  let reserved := Std.ExtTreeSet.ofList reserved
  Attempt.reading (·.requireSimple reserved.toList)
  pushing (some parent) root kind reserved module

/-- Enters a variable in its scope and then in the table of variables. Its name is taken out of the
reserved ones before the variable has its ordinal. -/
def entering (scope : ScopeId) (name : Name) (details : Variable.Details) :
    Attempt Fault Forest VarId := do
  let id : VarId := ⟨← Attempt.reading fun forest => number .var forest.vars.size⟩
  editScope scope fun within =>
    if within.reserved.isEmpty then within
    else { within with reserved := within.reserved.erase name }
  let ordinal ← Attempt.reading fun forest => do
    number .ordinal (← forest.scope scope).declared.size
  editScope scope fun within => { within with index := within.index.insert name id }
  editScope scope fun within => { within with declared := within.declared.push id }
  modify fun forest => { forest with
    vars := forest.vars.push
      { details with id := id, name := name, scope := scope, ordinal := ordinal } }
  return id

/-- Declares a variable, or reports why its name cannot be declared. -/
def tryBinding (scope : ScopeId) (name : Name) (details : Variable.Details) :
    Attempt Fault Forest (Except BuildError VarId) := do
  if ← Attempt.reading (·.isBottom scope) then throw (.declarationInBottom scope)
  if name = .empty then return .error (.emptyName scope)
  if (← Attempt.reading (·.scope scope)).index.contains name then
    return .error (.duplicateName scope (← Attempt.reading (·.spelling name)))
  return .ok (← entering scope name details)

/-- An attempt that takes a build error for a fault. -/
def expecting {α : Type} (attempt : Attempt Fault Forest (Except BuildError α)) :
    Attempt Fault Forest α := do
  match ← attempt with
  | .ok value => return value
  | .error error => throw (.build error)

/-- Declares a variable whose name is expected to be free. -/
def binding (scope : ScopeId) (name : Name) (details : Variable.Details) :
    Attempt Fault Forest VarId :=
  expecting (tryBinding scope name details)

/-- Reports the names that are still reserved in a scope, by spelling in code point order. Where
there are none, the scope gets a fresh empty set of them. -/
def tryValidating (scope : ScopeId) : Attempt Fault Forest (Except BuildError Unit) := do
  let reserved := (← Attempt.reading (·.scope scope)).reserved
  if !reserved.isEmpty then
    let spellings ← Attempt.reading fun forest => reserved.toList.mapM forest.spelling
    return .error (.reservedNamesRemain scope (spellings.mergeSort fun a b => decide (a ≤ b)))
  editScope scope fun within => { within with reserved := ∅ }
  return .ok ()

def validating (scope : ScopeId) : Attempt Fault Forest Unit := expecting (tryValidating scope)

/-- Validates scopes by number in turn, up to the first that is not complete. -/
def tryValidatingEach : List Nat → Attempt Fault Forest (Except BuildError Unit)
  | [] => return .ok ()
  | index :: indices => do
    let scope : ScopeId := ⟨← Attempt.answer (number .scope index)⟩
    match ← tryValidating scope with
    | .ok () => tryValidatingEach indices
    | .error error => return .error error

/-- Validates every scope in the order of creation. -/
def tryValidatingAll : Attempt Fault Forest (Except BuildError Unit) := do
  tryValidatingEach (List.range (← get).scopes.size)

end FlowTyping.Forest
