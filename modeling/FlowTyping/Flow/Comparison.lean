import FlowTyping.Flow

/-!
# Comparison of flow scopes

Agreement is the fixpoint test of an analysis: it depends on effective types alone. The unique
refinement between a chain and one that it grew from depends on the layers between them.
-/
namespace FlowTyping.Flow
open TypeLattice
variable {Λ : Type} [TypeLattice Λ]

/-- The effective type of a name in a scope over known refinements. -/
def effectiveType (forest : Forest) (scope : ScopeId) (refined : Slots) (name : Name) :
    Except Fault (Option TypeId) :=
  match refined[name]? with
  | some type => .ok (some type)
  | none => forest.declaredType scope name

/-- Whether two flow scopes agree: both or neither are unreachable, and every name that is refined
in one of them, or visible in one of them if their scopes differ, has the same effective type. -/
def agrees (types : Λ) (forest : Forest) (f g : Flow) : Except Fault Bool := do
  if f = g then return true
  if (← f.isBottom forest) != (← g.isBottom forest) then return false
  let left := f.refinements
  let right := g.refinements
  let same (name : Name) : Except Fault Bool := do
    return sameSlots types (← effectiveType forest f.scope left name)
      (← effectiveType forest g.scope right name)
  if !(← (left.keys ++ right.keys).allM same) then return false
  if f.scope = g.scope then return true
  ((← forest.visibleNames f.scope) ++ (← forest.visibleNames g.scope)).allM same

/-- The nearest refinements made along a chain before it reaches another one, if it does. -/
def refinedAbove? (other : Flow) (nearer : Slots) : List Layer → Option Slots
  | [] => none
  | layer :: layers =>
    if ⟨layer, layers⟩ = other then some nearer
    else refinedAbove? other (layer.slots ∪ nearer) layers

/-- The slot that was refined since a chain grew from another one, if it is exactly one. -/
def uniqueRefinement? (flow other : Flow) : Option (Name × TypeId) :=
  match (refinedAbove? other ∅ flow.layers).map (·.toList) with
  | some [slot] => some slot
  | _ => none

end FlowTyping.Flow
