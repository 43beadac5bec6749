import FlowTyping.Flow

/-!
# Join of flow scopes

Where branches meet, a slot gets the least supertype of its types on the branches. Unreachable
branches count for nothing. The result lives in the innermost scope around all others, and a
refinement takes part only if its name means the same variable there; where it does not, and where a
branch refines nothing, the declared type stands in.
-/
namespace FlowTyping.Flow
open TypeLattice
variable {Λ : Type} [TypeLattice Λ]

/-- The flow scopes that stand for reachable code. -/
def live (forest : Forest) : List Flow → Except Fault (List Flow)
  | [] => .ok []
  | flow :: flows => do
    let bottom ← flow.isBottom forest
    let rest ← live forest flows
    return if bottom then rest else flow :: rest

/-- The innermost scope around a scope and those of some flow scopes. -/
def scopeAround (forest : Forest) (scope : ScopeId) : List Flow → Except Fault ScopeId
  | [] => .ok scope
  | flow :: flows => do
    match ← forest.commonAncestor scope flow.scope with
    | some around => scopeAround forest around flows
    | none => throw (.unrelatedScopes scope flow.scope)

/-- The refinements of a flow scope as they are seen from another scope. -/
def refinementsIn (flow : Flow) (forest : Forest) (scope : ScopeId) : Except Fault Slots :=
  flow.refinements.retain (forest.sameBinding flow.scope scope)

/-- The join of the types of a name over several branches, from left to right. -/
def joinedType (declared : Option TypeId) (name : Name) (branches : List Slots) :
    Attempt UnknownType Λ (Option TypeId) :=
  branches.foldlM (fun joined slots => joinSlots joined (slots[name]?.or declared)) none

/-- The slots of several names whose joined type is not the declared one. -/
def joinedSlots (forest : Forest) (scope : ScopeId) (branches : List Slots) :
    List Name → Attempt Fault Λ Slots
  | [] => return ∅
  | name :: names => do
    let declared ← Attempt.answer (forest.declaredType scope name)
    let joined ← (joinedType declared name branches : Attempt UnknownType Λ _)
    let same := sameSlots (← get) joined declared
    let slots ← joinedSlots forest scope branches names
    match joined with
    | some type => return if same then slots else slots.insert name type
    | none => return slots

/-- The join of flow scopes. One live branch is the result itself, and of none the first branch is.
The names are taken in order, so the lattice is asked in an order that is fixed. -/
def join (stamp : Nat) (forest : Forest) (flows : List Flow) : Attempt Fault Λ Flow :=
  match flows with
  | [] => throw .emptyJoin
  | first :: _ => do
    match ← Attempt.answer (live forest flows) with
    | [] => return first
    | [only] => return only
    | flow :: others => do
      let scope ← Attempt.answer (scopeAround forest flow.scope others)
      let branches ←
        Attempt.answer ((flow :: others).mapM fun branch => branch.refinementsIn forest scope)
      let names := (branches.foldl (· ∪ ·) (∅ : Slots)).keys
      return overEntry stamp scope (← joinedSlots forest scope branches names)

end FlowTyping.Flow
