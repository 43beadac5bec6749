import FlowTyping.Flow

/-!
# Compaction

A chain with the same effective types and at most one layer over the entry. The entry itself is kept
with whatever was refined in it.
-/
namespace FlowTyping.Flow

/-- The chain made short. An empty layer in the scope of the entry is dropped, and a chain that is
short already is returned as it is. -/
def compact (flow : Flow) (stamp : Nat) : Flow :=
  if flow.depth ≤ 1 then
    match flow.parent? with
    | some parent =>
      if flow.top.slots.isEmpty && parent.scope = flow.scope then parent else flow
    | none => flow
  else
    let slots := overlay ∅ flow.layers.dropLast
    if slots.isEmpty && flow.base.scope = flow.scope then flow.base
    else ⟨⟨stamp, flow.scope, slots, 1⟩, flow.base.layers⟩

@[simp] theorem scope_compact (flow : Flow) (stamp : Nat) :
    (flow.compact stamp).scope = flow.scope := by
  unfold compact
  split
  · split
    · split
      next hdrop => exact of_decide_eq_true (Bool.and_eq_true_iff.mp hdrop).2
      next => rfl
    · rfl
  · dsimp only
    split
    next hdrop => exact of_decide_eq_true (Bool.and_eq_true_iff.mp hdrop).2
    next => rfl

end FlowTyping.Flow
