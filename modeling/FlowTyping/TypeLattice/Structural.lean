import FlowTyping.TypeLattice
import Std.Data.ExtTreeSet

/-!
# Structural types

A growing table of shapes. Unions, functions and objects of one shape share a handle. A union has at
least two members, in order and without repetition, none of them a union or the empty type. A class
is a constructor with its instances right after it, and every class is new. The numbers of types are
not bounded here.
-/
namespace FlowTyping

/-- The shape of a type. -/
inductive TypeTable.Shape where
  | number
  | string
  | boolean
  | noType
  | union (members : List TypeId)
  | function (receiver : Option TypeId)
  | constructor (instances : TypeId) (superclass : Option TypeId)
  | instances (constructor : TypeId)
  | object (prototype : Option TypeId)
deriving DecidableEq

/-- The shapes of the types, by number. -/
structure TypeTable where
  shapes : Array TypeTable.Shape
deriving DecidableEq

namespace TypeTable

/-- The type without values, which adds nothing to a union. -/
def noType : TypeId := ⟨3⟩

def basic : TypeTable := ⟨#[.number, .string, .boolean, .noType]⟩

def shape (table : TypeTable) (type : TypeId) : Except UnknownType Shape :=
  match table.shapes[type.raw]? with
  | some shape => .ok shape
  | none => .error ⟨type⟩

/-- The first type of a shape, entered at the end of the table if there is none. -/
def intern (table : TypeTable) (shape : Shape) : TypeId × TypeTable :=
  match table.shapes.findIdx? (· = shape) with
  | some index => (⟨index⟩, table)
  | none => (⟨table.shapes.size⟩, ⟨table.shapes.push shape⟩)

/-- The members of a union; any other type is its own member. -/
def members (table : TypeTable) (type : TypeId) : Except UnknownType (List TypeId) := do
  match ← table.shape type with
  | .union members => return members
  | _ => return [type]

/-- The members of several types, in order and without the empty type. -/
def membersOfAll (table : TypeTable) (types : List TypeId) : Except UnknownType (List TypeId) := do
  let all := (← types.mapM table.members).flatten
  return (Std.ExtTreeSet.ofList (all.filter (· ≠ noType))).toList

/-- The type of the members of several types: one of them, or their union. -/
def merging (types : List TypeId) : Attempt UnknownType TypeTable TypeId := do
  match ← Attempt.reading (·.membersOfAll types) with
  | [] => return noType
  | [only] => return only
  | members => .always (·.intern (.union members))

def function (table : TypeTable) (receiver : Option TypeId) : TypeId × TypeTable :=
  table.intern (.function receiver)

def object (table : TypeTable) (prototype : Option TypeId) : TypeId × TypeTable :=
  table.intern (.object prototype)

/-- A new class: its constructor and its instances. -/
def addClass (table : TypeTable) (superclass : Option TypeId) : (TypeId × TypeId) × TypeTable :=
  let constructor : TypeId := ⟨table.shapes.size⟩
  let instances : TypeId := ⟨table.shapes.size + 1⟩
  ((constructor, instances),
    ⟨(table.shapes.push (.constructor instances superclass)).push (.instances constructor)⟩)

/-- The least type above two types. A type is above itself whether it is known or not. -/
def joining (a b : TypeId) : Attempt UnknownType TypeTable TypeId :=
  if a = b then return a else merging [a, b]

def Shape.has : Shape → Trait → Bool
  | .function _, .isObject | .constructor _ _, .isObject | .instances _, .isObject
  | .object _, .isObject => true
  | .function _, .isFunction | .constructor _ _, .isFunction => true
  | .instances _, .isInstance => true
  | _, _ => false

/-- The type that stands in a relation to another. Instances find their superclass in the shape of
their constructor. -/
def related (table : TypeTable) (relation : Relation) (type : TypeId) :
    Except UnknownType (Option TypeId) := do
  match relation, ← table.shape type with
  | .receiver, .function receiver => return receiver
  | .receiver, .constructor instances _ => return some instances
  | .superclass, .instances constructor =>
    match ← table.shape constructor with
    | .constructor _ superclass => return superclass
    | _ => return none
  | .instances, .constructor instances _ => return some instances
  | .prototype, .object prototype => return prototype
  | _, _ => return none

instance : TypeLattice TypeTable where
  leastSupertype a b := joining a b
  has table trait type := return (← table.shape type).has trait
  related table relation type := table.related relation type

end TypeTable
end FlowTyping
