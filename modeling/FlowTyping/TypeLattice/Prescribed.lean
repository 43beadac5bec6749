import FlowTyping.TypeLattice

/-!
# Prescribed answers

A lattice that gives prescribed answers where there are some and asks another lattice elsewhere. Of
several answers to one question the last counts. A prescribed answer looks no type up.
-/
namespace FlowTyping

/-- A lattice with prescribed answers on top. -/
structure Prescribed (Λ : Type) where
  supertypes : List ((TypeId × TypeId) × TypeId)
  equalities : List (TypeId × TypeId)
  traits : List ((Trait × TypeId) × Bool)
  relations : List ((Relation × TypeId) × Option TypeId)
  types : Λ

namespace Prescribed
variable {Λ : Type}

def plain (types : Λ) : Prescribed Λ := ⟨[], [], [], [], types⟩

/-- The last answer to a question. -/
def last? {κ α : Type} [BEq κ] (rows : List (κ × α)) (question : κ) : Option α :=
  rows.reverse.lookup question

/-- Whether two types are prescribed to be the same, either way round. -/
def equates (prescribed : Prescribed Λ) (a b : TypeId) : Bool :=
  prescribed.equalities.contains (a, b) || prescribed.equalities.contains (b, a)

def below {ε α : Type} (inner : Attempt ε Λ α) : Attempt ε (Prescribed Λ) α :=
  inner.within (·.types) fun types prescribed => { prescribed with types := types }

instance [TypeLattice Λ] : TypeLattice (Prescribed Λ) where
  leastSupertype a b := do
    match last? (← get).supertypes (a, b) with
    | some answer => return answer
    | none => below (TypeLattice.leastSupertype a b)
  sameType prescribed a b :=
    TypeLattice.sameType prescribed.types a b || prescribed.equates a b
  has prescribed trait type :=
    match last? prescribed.traits (trait, type) with
    | some answer => .ok answer
    | none => TypeLattice.has prescribed.types trait type
  related prescribed relation type :=
    match last? prescribed.relations (relation, type) with
    | some answer => .ok answer
    | none => TypeLattice.related prescribed.types relation type

/-- Whatever is prescribed, a type stays the same as itself. -/
theorem sameType_self [TypeLattice Λ] (prescribed : Prescribed Λ)
    (hself : ∀ type, TypeLattice.sameType prescribed.types type type = true) (type : TypeId) :
    TypeLattice.sameType prescribed type type = true :=
  Bool.or_eq_true_iff.mpr (.inl (hself type))

end Prescribed
end FlowTyping
