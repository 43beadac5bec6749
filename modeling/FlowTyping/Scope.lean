import FlowTyping.Variable
import Std.Data.ExtTreeSet

/-!
# Scopes

One scope stands for each construct that introduces bindings. A scope knows the scopes around it,
innermost first: the first is its parent, their number is its depth, and a scope without any is a
root. The global scope is a root, and so is every bottom, the scope of unreachable code.
-/
namespace FlowTyping

/-- The syntactic role of a scope. -/
inductive Scope.Kind where
  | global
  | bottom
  | function (arrow : Bool)
  | block
  | staticBlock
  | field (isStatic : Bool)
  | module
deriving DecidableEq

namespace Scope.Kind

/-- Whether scopes of the kind stand at depth zero only. -/
def isRoot : Kind → Bool
  | global | bottom => true
  | _ => false

theorem isRoot_iff {kind : Kind} : kind.isRoot = true ↔ kind = global ∨ kind = bottom := by
  cases kind <;> simp [isRoot]

def text : Kind → String
  | global => "Global"
  | bottom => "Bottom"
  | function arrow => Text.record "Function" [("arrow", Text.truth arrow)]
  | block => "Block"
  | staticBlock => "StaticBlock"
  | field isStatic => Text.record "FieldInit" [("is_static", Text.truth isStatic)]
  | module => "Module"

end Scope.Kind

/-- A set of names, in the order of their numbers. -/
abbrev NameSet := Std.ExtTreeSet Name

/-- A scope. The declared variables are in order, and `index` finds them by name. The
reserved names are simple names that are still to be declared here. The root type is the type of the
node that the scope belongs to, once it is known. -/
structure Scope where
  outer : List ScopeId
  kind : Scope.Kind
  root : NodeId
  rootType : Option TypeId
  module : Option ModuleId
  declared : Array VarId
  index : Std.ExtTreeMap Name VarId
  reserved : NameSet
deriving DecidableEq

namespace Scope

/-- A scope in which nothing is declared or known yet. -/
def unbuilt (outer : List ScopeId) (kind : Kind) (root : NodeId) (reserved : NameSet)
    (module : Option ModuleId) : Scope where
  outer := outer
  kind := kind
  root := root
  rootType := none
  module := module
  declared := #[]
  index := ∅
  reserved := reserved

def parent? (scope : Scope) : Option ScopeId := scope.outer.head?

def depth (scope : Scope) : Nat := scope.outer.length

end Scope
end FlowTyping
