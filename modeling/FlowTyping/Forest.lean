import FlowTyping.Fault
import FlowTyping.Name.Table

/-!
# Forests of scopes

All scopes and all their variables stand in two tables and are referred to by handles. The first
scope is the global one; every further root is a bottom. A table of names belongs to the forest.
-/
namespace FlowTyping

/-- Scopes, their variables and the names of the variables. -/
structure Forest where
  names : NameTable
  scopes : Array Scope
  vars : Array Variable

namespace Forest

def global : ScopeId := ⟨0⟩

/-- The forest that holds the global scope alone. -/
def ofRoot (names : NameTable) (root : NodeId) : Forest :=
  ⟨names, #[.unbuilt [] .global root ∅ none], #[]⟩

def scope (forest : Forest) (id : ScopeId) : Except Fault Scope :=
  match forest.scopes[id.raw]? with
  | some scope => .ok scope
  | none => .error (.unknownScope id forest.scopes.size)

theorem scope_eq_ok_iff {forest : Forest} {id : ScopeId} {scope : Scope} :
    forest.scope id = .ok scope ↔ forest.scopes[id.raw]? = some scope := by
  unfold Forest.scope
  split <;> simp_all

def var (forest : Forest) (id : VarId) : Except Fault Variable :=
  match forest.vars[id.raw]? with
  | some found => .ok found
  | none => .error (.missing .var id.raw)

def spelling (forest : Forest) (name : Name) : Except Fault String :=
  match forest.names.spelling? name with
  | some text => .ok text
  | none => .error (.missing .name name.raw)

/-- Whether a scope stands for unreachable code. -/
def isBottom (forest : Forest) (id : ScopeId) : Except Fault Bool := do
  return (← forest.scope id).kind = .bottom

def isGlobal (forest : Forest) (id : ScopeId) : Except Fault Bool := do
  return (← forest.scope id).kind = .global

/-- The variables that a scope declares, in the order of declaration. -/
def variablesOf (forest : Forest) (id : ScopeId) : Except Fault (List Variable) := do
  (← forest.scope id).declared.toList.mapM forest.var

/-- The names that a scope declares, in the order of declaration. -/
def namesOf (forest : Forest) (id : ScopeId) : Except Fault (List Name) := do
  return (← forest.variablesOf id).map (·.name)

/-- The hoisted variables of a scope that have no type yet. -/
def unboundUntyped (forest : Forest) (id : ScopeId) : Except Fault (List Variable) := do
  return (← forest.variablesOf id).filter (·.isUnboundUntyped)

end Forest
end FlowTyping
