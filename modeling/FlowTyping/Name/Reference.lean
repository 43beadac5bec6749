import FlowTyping.Name.Table

/-!
# References to names

A caller gives a name by its spelling or by its number, and reads it in the same two ways.
-/
namespace FlowTyping

/-- A name as a caller writes it. -/
inductive NameRef where
  | spelled (text : String)
  | numbered (raw : Nat)
deriving DecidableEq

/-- A text with the number of a round in the place of every `{i}`. -/
def fillRound (round : Nat) : List Char → List Char
  | '\x7b' :: 'i' :: '\x7d' :: rest => (toString round).toList ++ fillRound round rest
  | c :: rest => c :: fillRound round rest
  | [] => []

/-- The name that a reference means in a round. -/
def NameRef.inRound (round : Nat) : NameRef → NameRef
  | .spelled text => .spelled (String.ofList (fillRound round text.toList))
  | .numbered raw => .numbered raw

namespace NameTable

/-- The name that a reference stands for. A spelling is interned, a number is taken as it is. -/
def name (table : NameTable) : NameRef → Name × NameTable
  | .spelled text => table.intern text
  | .numbered raw => (⟨raw⟩, table)

/-- The names of several references, interned from left to right. -/
def names (table : NameTable) : List NameRef → List Name × NameTable
  | [] => ([], table)
  | ref :: refs =>
    let (name, table) := table.name ref
    let (rest, table) := table.names refs
    (name :: rest, table)

/-- How a name is shown: by its spelling, or by its number if the table does not hold it. -/
def reference (table : NameTable) (name : Name) : NameRef :=
  match table.spelling? name with
  | some text => .spelled text
  | none => .numbered name.raw

end NameTable
end FlowTyping
