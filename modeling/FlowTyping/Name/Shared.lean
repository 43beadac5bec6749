import FlowTyping.Name.Table

/-!
# Shared name tables

Several holders may intern into one table. A holder is a number; what one holder enters is seen by
the holders of the same table and by no others. Only `tryIntern?` checks for numbers that are left.
-/
namespace FlowTyping

/-- Tables, and for each holder the place of its table. -/
structure SharedTables where
  tables : Array NameTable
  holders : Array Nat

namespace SharedTables

/-- One holder of one table that holds the preset spellings alone. -/
def initial : SharedTables := ⟨#[.initial], #[0]⟩

def table? (shared : SharedTables) (holder : Nat) : Option NameTable := do
  shared.tables[← shared.holders[holder]?]?

/-- Puts a table in the place of the one that a holder and those who share with it use. -/
def replace (shared : SharedTables) (holder : Nat) (table : NameTable) : SharedTables :=
  match shared.holders[holder]? with
  | some place => { shared with tables := shared.tables.setIfInBounds place table }
  | none => shared

def intern? (shared : SharedTables) (holder : Nat) (spelling : String) :
    Option (Name × SharedTables) := do
  let (name, table) := (← shared.table? holder).intern spelling
  return (name, shared.replace holder table)

/-- Interns through a holder unless the table is full. -/
def tryIntern? (shared : SharedTables) (holder : Nat) (spelling : String) :
    Option (Except NameTable.Overflow (Name × SharedTables)) := do
  match (← shared.table? holder).tryIntern spelling with
  | .ok (name, table) => return .ok (name, shared.replace holder table)
  | .error overflow => return .error overflow

/-- Interns the spellings `stem0`, `stem1`, … through a holder; answers the last name. -/
def internNumbered? (shared : SharedTables) (holder : Nat) (stem : String) (count : Nat) :
    Option (Option Name × SharedTables) := do
  let table ← shared.table? holder
  let (last, table) := (List.range count).foldl
    (fun (_, table) i =>
      let (name, table) := NameTable.intern table (stem ++ toString i)
      (some name, table))
    (none, table)
  return (last, shared.replace holder table)

/-- A further holder of the table that a holder has. -/
def share? (shared : SharedTables) (holder : Nat) : Option (Nat × SharedTables) := do
  let place ← shared.holders[holder]?
  return (shared.holders.size, { shared with holders := shared.holders.push place })

def fresh (shared : SharedTables) : Nat × SharedTables :=
  (shared.holders.size,
    ⟨shared.tables.push .initial, shared.holders.push shared.tables.size⟩)

end SharedTables
end FlowTyping
