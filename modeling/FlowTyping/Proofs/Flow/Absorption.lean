import FlowTyping.Proofs.Flow.Regrouping

/-!
# Joins that absorb their branches

A join already has what its branches contribute: it lives around them, and its types lie above
theirs. To join it once more with any of them adds nothing, although the second join looks at the
branches again, each from its own scope.
-/
namespace FlowTyping.Flow
open TypeLattice Attempt
variable {forest : Forest} {table later : TypeTable} {made again : Flow}

theorem Merges.seen_le {flows : List Flow} (hmerges : made.Merges forest table flows) {flow : Flow}
    (hflow : flow ∈ flows) (name : Name) :
    table.value (flow.seen? forest made.scope name) ≤
      table.value (made.effective? forest name) :=
  ((hmerges.joined name).least _).mp le_rfl _ (List.mem_map_of_mem hflow)

/-- What merges a flow scope with some of the branches that it merges itself has its scope and its
effective types. -/
theorem Merges.absorb (hforest : forest.Sound) (htable : table.Sound) {flows others : List Flow}
    (hmade : made.Merges forest table flows) (hothers : ∀ flow ∈ others, flow ∈ flows)
    (hagain : again.Merges forest table (made :: others)) :
    again.scope = made.scope ∧
      ∀ name, again.effective? forest name = made.effective? forest name := by
  have hnear : forest.NearestAround ((made :: others).map Flow.scope) made.scope := by
    intro id
    rw [List.map_cons, List.forall_mem_cons, List.forall_mem_map]
    refine ⟨fun hid => ⟨hid, fun flow hflow => ?_⟩, And.left⟩
    exact hforest.mem_path_trans (hmade.mem_path (hothers flow hflow)) hid
  have hscope : again.scope = made.scope :=
    hforest.nearestAround_unique hagain.live.lt_size hmade.live.lt_size hagain.scope hnear
  refine ⟨hscope, fun name => ?_⟩
  apply htable.eq_of_value_eq (hagain.joined name).holds (hmade.joined name).holds
  refine eq_of_forall_ge_iff fun bound => ?_
  rw [(hagain.joined name).least, List.forall_mem_map, List.forall_mem_cons, hscope, seen?_self]
  refine ⟨And.left, fun hbound => ⟨hbound, fun flow hflow => ?_⟩⟩
  exact (hmade.seen_le (hothers flow hflow) name).trans hbound

private theorem Gives.absorb (hforest : forest.Sound) (htable : table.Sound)
    {flows others : List Flow} (hmade : made.Gives forest table flows)
    (hothers : ∀ flow ∈ others, flow ∈ flows)
    (hagain : again.Gives forest table (made :: others)) : Twins forest made again := by
  have hreached : ∀ flow ∈ others.filter (isReachable forest),
      flow ∈ flows.filter (isReachable forest) := by
    intro flow hflow
    obtain ⟨hmem, hreachable⟩ := List.mem_filter.mp hflow
    exact List.mem_filter.mpr ⟨hothers flow hmem, hreachable⟩
  by_cases hreachable : made.isReachable forest = true
  · have hmade := hmade.of_ne_nil (hmade.isReachable_iff.mp hreachable)
    have hcons : (made :: others).filter (isReachable forest) =
        made :: others.filter (isReachable forest) := List.filter_cons_of_pos hreachable
    have hagain := hagain.of_ne_nil (hcons ▸ List.cons_ne_nil _ _)
    rw [hcons] at hagain
    obtain ⟨hscope, heffective⟩ := hmade.absorb hforest htable hreached hagain
    exact (twins_of_effective hforest hagain.fits.placed hmade.fits.placed hscope heffective).symm
  · have hnone := not_not.mp (mt hmade.isReachable_iff.mpr hreachable)
    have hdead : (made :: others).filter (isReachable forest) = [] := by
      rw [List.filter_cons_of_neg hreachable, List.eq_nil_iff_forall_not_mem]
      intro flow hflow
      have hmem := hreached flow hflow
      rw [hnone] at hmem
      cases hmem
    exact Option.some.inj (hagain.of_nil hdead) ▸ .refl made

/-- Joining what was joined with any of its branches, reachable or not, changes nothing: the result
has the same scope, agrees with it either way round, and has the same effective type for every name
with a spelling. -/
theorem join_absorb (hforest : forest.Built) (htable : table.Built) (htyped : forest.Typed table)
    {xs ys : List Flow} (hxs : xs ≠ []) (hys : ∀ flow ∈ ys, flow ∈ xs)
    (hscopes : ∀ flow ∈ xs, flow.scope.raw < forest.scopes.size)
    (hfits : ∀ flow ∈ xs.filter (isReachable forest), flow.Fits forest table) (s₁ s₂ : Nat) :
    let joins : Attempt Fault TypeTable (Flow × Flow) := do
      let made ← join s₁ forest xs
      let again ← join s₂ forest (made :: ys)
      return (made, again)
    ∃ made again later, joins.run.run table = (.ok (made, again), later) ∧
      again.scope = made.scope ∧
      agrees later forest again made = .ok true ∧ agrees later forest made again = .ok true ∧
      ∀ name, forest.Interned name → ∃ type,
        made.slotType forest name = .ok type ∧ again.slotType forest name = .ok type := by
  have hsound := hforest.sound
  obtain ⟨made, between, hrun₁, hmade⟩ := join_settles hsound htable.sound htyped s₁ hxs hscopes hfits
  have hsize := hmade.lt_size hscopes
  have hscopes₂ : ∀ flow ∈ made :: ys, flow.scope.raw < forest.scopes.size :=
    List.forall_mem_cons.mpr ⟨hsize, fun flow hflow => hscopes flow (hys flow hflow)⟩
  have hfits₂ : ∀ flow ∈ (made :: ys).filter (isReachable forest), flow.Fits forest between := by
    intro flow hflow
    obtain ⟨hmem, hreachable⟩ := List.mem_filter.mp hflow
    rcases List.mem_cons.mp hmem with rfl | hmem
    · exact hmade.fits hreachable
    · exact (hfits flow (List.mem_filter.mpr ⟨hys flow hmem, hreachable⟩)).grow hrun₁.grows
  obtain ⟨again, later, hrun₂, hagain⟩ := join_settles hsound hrun₁.sound
    (htyped.grow hrun₁.grows) s₂ (List.cons_ne_nil made ys) hscopes₂ hfits₂
  have htwins := (hmade.grow hrun₂.grows).absorb hsound hrun₂.sound hys hagain
  have hpair : later.Settles (pure (made, again) : Attempt Fault TypeTable _) (made, again) later :=
    hrun₂.sound.settles_pure (made, again)
  refine ⟨made, again, later, (hrun₁.bind (hrun₂.bind hpair)).run, htwins.scope.symm,
    (htwins.agrees hsize).2, (htwins.agrees hsize).1, fun name hname => ?_⟩
  have hslot := slotType_eq hsound hsize hname
  exact ⟨_, hslot, (htwins.slots name).symm.trans hslot⟩

theorem join_absorb_of_crossing :
    let joins : Attempt Fault TypeTable (Flow × Flow) := do
      let made ← join 5 crossing crossingBranches
      let again ← join 6 crossing (made :: crossingBranches.reverse)
      return (made, again)
    ∃ made again later, joins.run.run TypeTable.basic = (.ok (made, again), later) ∧
      again.scope = made.scope ∧
      agrees later crossing again made = .ok true ∧
      agrees later crossing made again = .ok true ∧
      ∃ type, made.slotType crossing ⟨5⟩ = .ok type ∧ again.slotType crossing ⟨5⟩ = .ok type := by
  obtain ⟨made, again, later, hrun, hscope, hagrees, hagrees', htypes⟩ :=
    join_absorb crossing_built TypeTable.Built.basic crossing_typed
      (List.cons_ne_nil _ _ : crossingBranches ≠ [])
      (fun flow hflow => List.mem_reverse.mp hflow) crossingBranches_scopes crossingBranches_fit 5 6
  exact ⟨made, again, later, hrun, hscope, hagrees, hagrees', htypes ⟨5⟩ crossing_interned⟩

end FlowTyping.Flow
