import FlowTyping.TypeLattice

/-!
# Recorded joins

A lattice that keeps the least supertypes it was asked for, in order.
-/
namespace FlowTyping

/-- A lattice with the calls that were answered, the latest first. -/
structure Recorded (Λ : Type) where
  types : Λ
  latest : List (TypeId × TypeId × TypeId)

namespace Recorded
variable {Λ : Type}

def start (types : Λ) : Recorded Λ := ⟨types, []⟩

/-- The calls and their answers, in order. -/
def calls (recorded : Recorded Λ) : List (TypeId × TypeId × TypeId) := recorded.latest.reverse

def below {ε α : Type} (inner : Attempt ε Λ α) : Attempt ε (Recorded Λ) α :=
  inner.within (·.types) fun types recorded => { recorded with types := types }

instance [TypeLattice Λ] : TypeLattice (Recorded Λ) where
  leastSupertype a b := do
    let answer ← below (TypeLattice.leastSupertype a b)
    modify fun recorded => { recorded with latest := (a, b, answer) :: recorded.latest }
    return answer
  sameType recorded := TypeLattice.sameType recorded.types
  has recorded := TypeLattice.has recorded.types
  related recorded := TypeLattice.related recorded.types

end Recorded
end FlowTyping
