import FlowTyping.Attempt
import FlowTyping.Fault

/-!
# Type lattices

What flow scopes and implicit variables ask of types. Types are handles; a lattice answers for them
and may grow by the types that it has to build. It fails on no other ground than a type that it does
not know. A slot without a type takes the type of the other side in a join and equals only another
slot without a type.
-/
namespace FlowTyping

/-- Questions about one type that are answered by yes or no. -/
inductive Trait where
  | isObject | isFunction | isInstance
deriving DecidableEq

/-- Questions for a type that belongs to another: the receiver of a function, the superclass
constructor of an instance, the instances of a constructor, the prototype of an object. -/
inductive Relation where
  | receiver | superclass | instances | prototype
deriving DecidableEq

/-- A type that a lattice does not know. -/
structure UnknownType where
  type : TypeId
deriving DecidableEq

/-- A type without an entry in the table of types, as a fault. -/
def UnknownType.fault (unknown : UnknownType) : Fault := .missing .type unknown.type.raw

instance : MonadLift (Except UnknownType) (Except Fault) := ⟨Except.mapError UnknownType.fault⟩

instance {Λ : Type} : MonadLift (Attempt UnknownType Λ) (Attempt Fault Λ) :=
  ⟨Attempt.failing UnknownType.fault⟩

/-- A lattice of types. Two types are the same if their handles are, unless the lattice knows
better. -/
class TypeLattice (Λ : Type) where
  leastSupertype (a b : TypeId) : Attempt UnknownType Λ TypeId
  sameType (types : Λ) (a b : TypeId) : Bool := a = b
  has (types : Λ) (trait : Trait) (type : TypeId) : Except UnknownType Bool
  related (types : Λ) (relation : Relation) (type : TypeId) : Except UnknownType (Option TypeId)

namespace TypeLattice
variable {Λ : Type} [TypeLattice Λ]

/-- The join of two slots. A slot without a type does not widen the other. -/
def joinSlots : Option TypeId → Option TypeId → Attempt UnknownType Λ (Option TypeId)
  | some a, some b => some <$> leastSupertype a b
  | some a, none => pure (some a)
  | none, some b => pure (some b)
  | none, none => pure none

/-- A slot whose type has a trait; any other is taken as untyped. -/
def keepIf (types : Λ) (trait : Trait) : Option TypeId → Except UnknownType (Option TypeId)
  | some type => do return if ← has types trait type then some type else none
  | none => .ok none

/-- The type that stands in a relation to that of a slot. -/
def relatedTo (types : Λ) (relation : Relation) : Option TypeId → Except UnknownType (Option TypeId)
  | some type => related types relation type
  | none => .ok none

def sameSlots (types : Λ) : Option TypeId → Option TypeId → Bool
  | some a, some b => sameType types a b
  | none, none => true
  | _, _ => false

end TypeLattice
end FlowTyping
