import FlowTyping.Forest.Ancestry
import FlowTyping.Name.Qualified

/-!
# Resolution of names

A simple name means its innermost declaration. A qualified name lives in the scope of its root
identifier, so an inner declaration of the root hides the qualified names of an outer one. Where the
root is declared nowhere, a qualified name may still be declared in the outermost scope.
-/
namespace FlowTyping.Forest

/-- The variable that a scope itself declares under a name. -/
def ownVariable? (forest : Forest) (id : ScopeId) (name : Name) :
    Except Fault (Option Variable) := do
  match (← forest.scope id).index[name]? with
  | some found => return some (← forest.var found)
  | none => return none

def declaredOn? (forest : Forest) (name : Name) : List ScopeId → Except Fault (Option Variable)
  | [] => .ok none
  | id :: path => do
    match ← forest.ownVariable? id name with
    | some found => return some found
    | none => forest.declaredOn? name path

/-- The first declaration along a path of the root identifier of a qualified name. A root that was
never interned is declared nowhere. -/
def rootOn? (forest : Forest) (root : String) (path : List ScopeId) :
    Except Fault (Option Variable) :=
  match forest.names.find? root with
  | some name => forest.declaredOn? name path
  | none => .ok none

/-- The variable that a name means in a scope. A name that the scope itself declares is found first;
only then, and only inside another scope, the spelling decides where to look. -/
def resolve (forest : Forest) (id : ScopeId) (name : Name) : Except Fault (Option Variable) := do
  match ← forest.ownVariable? id name with
  | some found => return some found
  | none =>
    match (← forest.scope id).outer with
    | [] => return none
    | parent :: outer =>
      match rootIdentifier? (← forest.spelling name) with
      | none => forest.declaredOn? name (id :: parent :: outer)
      | some root =>
        match ← forest.rootOn? root (id :: parent :: outer) with
        | some found => forest.ownVariable? found.scope name
        | none => forest.ownVariable? (outer.getLastD parent) name

/-- The declared type of a name in a scope. -/
def declaredType (forest : Forest) (id : ScopeId) (name : Name) :
    Except Fault (Option TypeId) := do
  return (← forest.resolve id name).bind (·.type)

/-- The scope that declares the variable that a name means. -/
def declaringScope (forest : Forest) (id : ScopeId) (name : Name) :
    Except Fault (Option ScopeId) := do
  return (← forest.resolve id name).map (·.scope)

/-- Whether a name means the same variable in two scopes, or none in either. -/
def sameBinding (forest : Forest) (source target : ScopeId) (name : Name) : Except Fault Bool := do
  if source = target then return true
  return (← forest.declaringScope source name) = (← forest.declaringScope target name)

@[simp] theorem sameBinding_self (forest : Forest) (id : ScopeId) (name : Name) :
    forest.sameBinding id id name = .ok true := by
  simp [sameBinding, pure, Except.pure]

/-- The innermost scope that declares a name or has it reserved. -/
def eventualScope (forest : Forest) (id : ScopeId) (name : Name) :
    Except Fault (Option ScopeId) :=
  forest.nearest (fun scope => scope.index.contains name || scope.reserved.contains name) id

end FlowTyping.Forest
