import FlowTyping.Flow

/-!
# Change of scope

On entering or leaving a block, a refinement stays if its name means the same variable on both
sides.
-/
namespace FlowTyping.Flow

/-- The chain continued in another scope. A chain that loses no refinement gets an empty layer on
top; otherwise what is left becomes one layer over the entry of the new scope. -/
def enter (flow : Flow) (stamp : Nat) (forest : Forest) (scope : ScopeId) : Except Fault Flow := do
  if scope = flow.scope then return flow.push stamp scope
  let slots := flow.refinements
  let kept ← slots.retain (forest.sameBinding flow.scope scope)
  return if kept.size = slots.size then flow.push stamp scope else overEntry stamp scope kept

end FlowTyping.Flow
