import FlowTyping.Scope
import FlowTyping.Text.Quoted

/-!
# Faults

Why an operation has no answer. A build error is reported by the operations that expect it. Every
other fault means that a caller broke the rules of an operation, or that a handle has no entry in
its table. A fault of the second sort carries no message.
-/
namespace FlowTyping

/-- What keeps a declaration from being made, or a scope from being complete. -/
inductive BuildError where
  | emptyName (scope : ScopeId)
  | duplicateName (scope : ScopeId) (spelling : String)
  | reservedNamesRemain (scope : ScopeId) (spellings : List String)
deriving DecidableEq

def BuildError.message : BuildError → String
  | emptyName scope => "cannot declare a variable with an empty name in " ++ scope.text
  | duplicateName scope spelling =>
    "`" ++ spelling ++ "` is already declared in " ++ scope.text
  | reservedNamesRemain scope spellings =>
    "expected " ++ scope.text ++ " to have no reserved names, found: " ++
      Text.listed (spellings.map Text.quoted) ++
      "; the declaration pass failed to declare a variable"

/-- What is numbered on as it is made, so that the numbers can run out. -/
inductive Counted where
  | scope | var | ordinal
deriving DecidableEq

def Counted.text : Counted → String
  | scope => "scope"
  | var => "variable"
  | ordinal => "scope variable"

/-- Why an operation has no answer. -/
inductive Fault where
  /-- A build error where none is expected. -/
  | build (error : BuildError)
  /-- A scope that is not among the `count` scopes of the forest. -/
  | unknownScope (scope : ScopeId) (count : Nat)
  /-- A handle without an entry in its table. -/
  | missing (entity : Entity) (raw : Nat)
  /-- No number left for a further scope or variable. -/
  | exceeded (counted : Counted)
  /-- A root kind for a scope with a parent. -/
  | parentedRoot (kind : Scope.Kind) (parent : ScopeId)
  /-- A bottom as a parent. -/
  | childOfBottom (parent : ScopeId)
  /-- A scope with the root node of its parent. -/
  | sharedRoot (root : NodeId) (parent : ScopeId)
  /-- A reserved name with a dot. -/
  | qualifiedReserved
  /-- A declaration in a bottom. -/
  | declarationInBottom (scope : ScopeId)
  /-- A scope that needs a parent and has none. -/
  | orphan (kind : Scope.Kind) (scope : ScopeId)
  /-- An instance field in a class whose type has no instances. -/
  | fieldOfNonClass (scope : ScopeId) (type : TypeId)
  /-- The type of `exports`, which no scope synthesizes. -/
  | synthesizedExports
  /-- A join of nothing. -/
  | emptyJoin
  /-- A join of flow scopes that hang from different roots. -/
  | unrelatedScopes (first second : ScopeId)
  /-- A key under which no flow scope is kept. -/
  | unknownFlow (key : String)
deriving DecidableEq

namespace Fault

/-- The wording of a fault, for those that have one. -/
def message? : Fault → Option String
  | build error => error.message
  | unknownScope scope count =>
    "ScopeId " ++ toString scope.raw ++ " out of bounds (have " ++ toString count ++ " scopes)"
  | missing _ _ => none
  | exceeded counted => counted.text ++ " count exceeds u32::MAX"
  | parentedRoot kind parent =>
    kind.text ++ " scopes cannot have a parent (creating child of " ++ parent.text ++ ")"
  | childOfBottom parent => "lattice bottom " ++ parent.text ++ " cannot have child scopes"
  | sharedRoot root parent =>
    "child scope must not share root node " ++ root.text ++ " with its parent " ++ parent.text
  | qualifiedReserved => "reserved names must be simple identifiers"
  | declarationInBottom scope => "cannot declare variables in lattice bottom " ++ scope.text
  | orphan kind scope => kind.text ++ " scope " ++ scope.text ++ " has no parent"
  | fieldOfNonClass scope type =>
    "instance field in " ++ scope.text ++ " belongs to " ++ type.label ++
      ", which is not a constructor"
  | synthesizedExports => "scopes never synthesize an implicit `exports`"
  | emptyJoin => "cannot join zero flow scopes"
  | unrelatedScopes first second =>
    "cannot join flow scopes over unrelated scopes " ++ first.text ++ " and " ++ second.text
  | unknownFlow _ => none

end Fault
end FlowTyping
