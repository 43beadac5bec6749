import FlowTyping.Handle

/-!
# Name tables

A table gives every spelling one name and every name one spelling. It only grows: a new spelling
takes the next number, and a name that was handed out keeps its spelling. Five spellings are present
from the start, so that the names that scopes synthesize need no table.

Names are numbered without a bound. A table whose numbers are all taken ends the program at the next
new spelling, which `intern` leaves out; `tryIntern` has the check.
-/
namespace FlowTyping

/-- Spellings by the number of their name, and the names by spelling. -/
structure NameTable where
  spellings : Array String
  index : Std.ExtTreeMap String Name

namespace NameTable

def size (table : NameTable) : Nat := table.spellings.size

def find? (table : NameTable) (spelling : String) : Option Name := table.index[spelling]?

def spelling? (table : NameTable) (name : Name) : Option String := table.spellings[name.raw]?

/-- The name of a spelling, entered at the end of the table if it is new. That a number is left for
it is taken for granted. -/
def intern (table : NameTable) (spelling : String) : Name × NameTable :=
  match table.find? spelling with
  | some name => (name, table)
  | none =>
    let name : Name := ⟨table.size⟩
    (name, ⟨table.spellings.push spelling, table.index.insert spelling name⟩)

theorem find?_intern (table : NameTable) (spelling other : String) :
    (table.intern spelling).2.find? other =
      if spelling = other then some (table.intern spelling).1 else table.find? other := by
  unfold intern
  split
  next name known =>
    split
    next same => exact same ▸ known
    next => rfl
  next => simp [find?, Std.ExtTreeMap.getElem?_insert]

theorem size_intern (table : NameTable) (spelling : String) :
    (table.intern spelling).2.size =
      if (table.find? spelling).isSome then table.size else table.size + 1 := by
  cases known : table.find? spelling <;> simp [intern, known, size]

/-- A name that was handed out keeps its spelling. -/
theorem spelling?_intern_of_lt (table : NameTable) (spelling : String) {name : Name}
    (h : name.raw < table.size) :
    (table.intern spelling).2.spelling? name = table.spelling? name := by
  cases known : table.find? spelling with
  | some _ => simp [intern, known]
  | none =>
    simp only [intern, known, spelling?]
    exact (Array.getElem?_push_lt h).trans (Array.getElem?_eq_getElem h).symm

/-- The spellings that every table holds, in the order of their names. -/
def preset : List String := ["", "this", "super", "arguments", "exports"]

/-- The table that holds the preset spellings alone. -/
def initial : NameTable :=
  preset.foldl (fun table spelling => (table.intern spelling).2) ⟨#[], ∅⟩

/-- Whether nothing was entered beyond the preset spellings. -/
def isPreset (table : NameTable) : Bool := table.size ≤ preset.length

/-- A new spelling had no number left; `count` spellings were in the table. -/
structure Overflow where
  count : Nat
deriving DecidableEq

def Overflow.message (overflow : Overflow) : String :=
  "interner exceeded capacity: " ++ toString overflow.count ++ " strings, max is " ++
    toString (Handle.capacity - 1)

/-- Interning that refuses a new spelling once every number is taken. -/
def tryIntern (table : NameTable) (spelling : String) : Except Overflow (Name × NameTable) :=
  if (table.find? spelling).isSome || table.size < Handle.capacity then
    .ok (table.intern spelling)
  else
    .error ⟨table.size⟩

end NameTable
end FlowTyping
