import FlowTyping.Text.Record
import Std.Data.ExtTreeMap

/-!
# Handles

Scopes, variables, syntax nodes, input units, modules, types and names are referred to by number.
The sort of the thing is part of the type, so a variable is never looked up where a scope is meant.
Handles of one sort are ordered by number.
-/
namespace FlowTyping

/-- The sorts of things that are referred to by number. -/
inductive Entity where
  | scope | var | node | input | module | type | name
deriving DecidableEq

/-- A number that stands for one thing of a sort. -/
@[ext] structure Handle (entity : Entity) where
  raw : Nat
deriving DecidableEq

abbrev ScopeId := Handle .scope
abbrev VarId := Handle .var
abbrev NodeId := Handle .node
abbrev InputId := Handle .input
abbrev ModuleId := Handle .module
abbrev TypeId := Handle .type
/-- An interned name. A qualified name such as `a.b` is a name of its own. -/
abbrev Name := Handle .name

namespace Handle
variable {entity : Entity}

instance : Ord (Handle entity) := ⟨fun a b => compare a.raw b.raw⟩

theorem compare_def (a b : Handle entity) : compare a b = compare a.raw b.raw := rfl

instance : Std.TransOrd (Handle entity) :=
  inferInstanceAs (Std.TransCmp (compareOn Handle.raw))

instance : Std.LawfulEqOrd (Handle entity) where
  compare_self := Std.ReflOrd.compare_self (α := Nat)
  eq_of_compare h := Handle.ext (Std.LawfulEqOrd.eq_of_compare h)

/-- The number of handles of each sort that can be told apart: they are 32 bits wide. -/
def capacity : Nat := UInt32.size

/-- The handle `offset` places on, counted around the end of the numbers. -/
def after (h : Handle entity) (offset : Nat) : Handle entity := ⟨(h.raw + offset) % capacity⟩

end Handle

namespace Name

def empty : Name := ⟨0⟩
def this : Name := ⟨1⟩
def super : Name := ⟨2⟩
def arguments : Name := ⟨3⟩
def exports : Name := ⟨4⟩

/-- A name by its number; the five names that every table holds are shown by a word. -/
def text (name : Name) : String :=
  match name.raw with
  | 0 => "Name::EMPTY"
  | 1 => "Name::THIS"
  | 2 => "Name::SUPER"
  | 3 => "Name::ARGUMENTS"
  | 4 => "Name::EXPORTS"
  | raw => Text.tagged "Name" (toString raw)

end Name

def Entity.tag : Entity → String
  | .scope => "ScopeId"
  | .var => "VarId"
  | .node => "NodeId"
  | .input => "InputId"
  | .module => "ModuleId"
  | .type => "Idx"
  | .name => "Name"

def Handle.text : {entity : Entity} → Handle entity → String
  | .name, name => Name.text name
  | entity, handle => Text.tagged entity.tag (toString handle.raw)

/-- The short form of a type in messages. -/
def TypeId.label (type : TypeId) : String := "type#" ++ toString type.raw

end FlowTyping
