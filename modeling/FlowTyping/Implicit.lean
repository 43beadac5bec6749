import FlowTyping.Forest.Resolution
import FlowTyping.TypeLattice

/-!
# Implicit variables

The variables `this`, `super`, `arguments` and `exports` are never declared. A scope whose kind
makes one of them owns it, and its type is read off the root types of the forest. No scope makes
`exports`.
-/
namespace FlowTyping

/-- A variable that scopes have without a declaration. -/
inductive Implicit where
  | this | super | arguments | exports
deriving DecidableEq

namespace Implicit

def text : Implicit → String
  | this => "This"
  | super => "Super"
  | arguments => "Arguments"
  | exports => "Exports"

/-- The name of an implicit variable, which every table of names holds. -/
def name : Implicit → Name
  | this => .this
  | super => .super
  | arguments => .arguments
  | exports => .exports

def all : List Implicit := [this, super, arguments, exports]

def ofName? (name : Name) : Option Implicit := all.find? (·.name = name)

/-- Whether scopes of a kind make an implicit variable. Functions other than arrow functions make
`this`, `super` and `arguments`; the initializers of class members make the first two. -/
def isMadeBy : Implicit → Scope.Kind → Bool
  | this, .function false | this, .staticBlock | this, .field _ => true
  | super, .function false | super, .staticBlock | super, .field _ => true
  | arguments, .function false => true
  | _, _ => false

/-- An implicit variable as the scope that owns it types it. -/
structure Binding where
  var : Implicit
  owner : ScopeId
  type : Option TypeId
deriving DecidableEq

end Implicit

namespace Forest
open TypeLattice
variable {Λ : Type} [TypeLattice Λ]

/-- The root type of the first scope of a path around a scope that needs one. -/
def parentType (forest : Forest) (id : ScopeId) (kind : Scope.Kind) :
    List ScopeId → Except Fault (Option TypeId)
  | [] => .error (.orphan kind id)
  | parent :: _ => do return (← forest.scope parent).rootType

/-- The type of the instances that a field of a class belongs to. -/
def instancesType (types : Λ) (id : ScopeId) : Option TypeId → Except Fault (Option TypeId)
  | none => .ok none
  | some type => do
    match ← related types .instances type with
    | some instances => return some instances
    | none => throw (.fieldOfNonClass id type)

/-- The type of `this` in the first scope of a path. The global scope gives its root type if that is
an object, a function its receiver, a member initializer the constructor or the instances of the
class around it. Every other scope that is not a root asks the scope around it. -/
def thisTypeOn (forest : Forest) (types : Λ) : List ScopeId → Except Fault (Option TypeId)
  | [] => .ok none
  | id :: outer => do
    let scope ← forest.scope id
    match scope.kind with
    | .global => keepIf types .isObject scope.rootType
    | .bottom => return none
    | .function false =>
      relatedTo types .receiver (← keepIf types .isFunction scope.rootType)
    | .staticBlock | .field true => forest.parentType id scope.kind outer
    | .field false => instancesType types id (← forest.parentType id scope.kind outer)
    | .function true | .block | .module =>
      if outer.isEmpty then throw (.orphan scope.kind id)
      forest.thisTypeOn types outer

def thisType (forest : Forest) (types : Λ) (id : ScopeId) : Except Fault (Option TypeId) := do
  forest.thisTypeOn types (← forest.ancestors id)

/-- The type of `super` where `this` has a given type: the instances of the superclass if that is an
instance, the prototype of any other object. -/
def superType (types : Λ) (this : Option TypeId) : Except UnknownType (Option TypeId) := do
  match ← keepIf types .isObject this with
  | none => return none
  | some receiver =>
    if ← has types .isInstance receiver then
      relatedTo types .instances (← related types .superclass receiver)
    else
      related types .prototype receiver

/-- The type of `arguments`: that of the extern variable of this name in the outermost scope. -/
def argumentsType (forest : Forest) (id : ScopeId) : Except Fault (Option TypeId) := do
  let outermost := (← forest.scope id).outer.getLastD id
  match ← forest.ownVariable? outermost .arguments with
  | some found => return if found.isExtern then found.type else none
  | none => return none

/-- The type of an implicit variable in the scope that owns it. -/
def implicitType (forest : Forest) (types : Λ) (id : ScopeId) :
    Implicit → Except Fault (Option TypeId)
  | .this => forest.thisType types id
  | .super => do superType types (← forest.thisType types id)
  | .arguments => forest.argumentsType id
  | .exports => .error .synthesizedExports

/-- Whether a scope owns an implicit variable. -/
def ownsImplicit (forest : Forest) (id : ScopeId) (var : Implicit) : Except Fault Bool := do
  return var.isMadeBy (← forest.scope id).kind

/-- An implicit variable as a scope would type it. The global scope has none, and `exports` is left
to declarations. -/
def makeImplicit (forest : Forest) (types : Λ) (id : ScopeId) (var : Implicit) :
    Except Fault (Option Implicit.Binding) := do
  if (← forest.isGlobal id) || var = .exports then return none
  return some ⟨var, id, ← forest.implicitType types id var⟩

/-- The implicit variable that is meant in a scope: that of the innermost scope that owns it. -/
def resolveImplicit (forest : Forest) (types : Λ) (id : ScopeId) (var : Implicit) :
    Except Fault (Option Implicit.Binding) := do
  match ← forest.nearest (fun scope => var.isMadeBy scope.kind) id with
  | some owner => forest.makeImplicit types owner var
  | none => return none

end Forest
end FlowTyping
