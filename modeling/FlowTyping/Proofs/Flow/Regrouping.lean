import FlowTyping.Proofs.Flow.Agreement
import FlowTyping.Proofs.Flow.Meeting

/-!
# Joins in groups

Branches may be joined in groups first. The groups meet in other scopes than all branches together,
where other refinements are dropped and other declared types stand in. What is dropped too early is
dropped in the end anyway, because a simple name that means the same at both ends of a path means
the same on all of it.
-/
namespace FlowTyping.Flow
open TypeLattice Attempt
variable {forest : Forest} {table later : TypeTable} {scope : ScopeId} {flow result : Flow}

theorem Merges.grow {flows : List Flow} (hmerges : result.Merges forest table flows)
    (hgrows : table.Grows later) : result.Merges forest later flows :=
  ⟨hmerges.fits.grow hgrows, hmerges.live, hmerges.scope,
    fun name => (hmerges.joined name).grow hgrows⟩

theorem Fits.merges_self (hforest : forest.Sound) (htyped : forest.Typed table)
    (hfits : flow.Fits forest table) (hlive : forest.Live flow.scope) :
    flow.Merges forest table [flow] := by
  refine ⟨hfits, hlive, Forest.nearestAround_singleton flow.scope, fun name => ?_⟩
  refine .of_forall (List.cons_ne_nil _ _) ?_ (hfits.effective hforest htyped name)
  intro slot hslot
  rw [List.mem_singleton.mp hslot, seen?_self]

theorem Merges.mem_path {flows : List Flow} (hmerges : result.Merges forest table flows)
    (hflow : flow ∈ flows) : result.scope ∈ forest.path flow.scope :=
  hmerges.scope.mem_path hmerges.live.lt_size (List.mem_map_of_mem hflow)

/-- A flow scope that is the first of several if none is reachable, and else merges those that
are. -/
def Gives (result : Flow) (forest : Forest) (table : TypeTable) (flows : List Flow) : Prop :=
  match flows.filter (isReachable forest) with
  | [] => flows.head? = some result
  | first :: rest => result.Merges forest table (first :: rest)

theorem Gives.of_nil {flows : List Flow} (hgives : result.Gives forest table flows)
    (hnone : flows.filter (isReachable forest) = []) : flows.head? = some result := by
  unfold Gives at hgives
  rw [hnone] at hgives
  exact hgives

theorem Gives.of_ne_nil {flows : List Flow} (hgives : result.Gives forest table flows)
    (hsome : flows.filter (isReachable forest) ≠ []) :
    result.Merges forest table (flows.filter (isReachable forest)) := by
  unfold Gives at hgives
  cases hreachable : flows.filter (isReachable forest) with
  | nil => exact absurd hreachable hsome
  | cons first rest =>
    rw [hreachable] at hgives
    exact hgives

theorem Gives.grow {flows : List Flow} (hgives : result.Gives forest table flows)
    (hgrows : table.Grows later) : result.Gives forest later flows := by
  unfold Gives at hgives ⊢
  split
  next hreachable =>
    rw [hreachable] at hgives
    exact hgives
  next hreachable =>
    rw [hreachable] at hgives
    exact hgives.grow hgrows

theorem Gives.isReachable_iff {flows : List Flow} (hgives : result.Gives forest table flows) :
    result.isReachable forest = true ↔ flows.filter (isReachable forest) ≠ [] := by
  constructor
  · intro hreachable hnone
    have hmem := List.mem_of_mem_head? (hgives.of_nil hnone)
    have hfilter := List.mem_filter.mpr ⟨hmem, hreachable⟩
    rw [hnone] at hfilter
    cases hfilter
  · intro hsome
    exact Flow.isReachable_iff.mpr (hgives.of_ne_nil hsome).live

theorem Gives.fits {flows : List Flow} (hgives : result.Gives forest table flows)
    (hreachable : result.isReachable forest = true) : result.Fits forest table :=
  (hgives.of_ne_nil (hgives.isReachable_iff.mp hreachable)).fits

theorem Gives.lt_size {flows : List Flow} (hgives : result.Gives forest table flows)
    (hscopes : ∀ flow ∈ flows, flow.scope.raw < forest.scopes.size) :
    result.scope.raw < forest.scopes.size := by
  by_cases hnone : flows.filter (isReachable forest) = []
  · exact hscopes result (List.mem_of_mem_head? (hgives.of_nil hnone))
  · exact (hgives.of_ne_nil hnone).live.lt_size

theorem join_settles (hforest : forest.Sound) (htable : table.Sound) (htyped : forest.Typed table)
    (stamp : Nat) {flows : List Flow} (hflows : flows ≠ [])
    (hscopes : ∀ flow ∈ flows, flow.scope.raw < forest.scopes.size)
    (hfits : ∀ flow ∈ flows.filter (isReachable forest), flow.Fits forest table) :
    ∃ result later, table.Settles (join stamp forest flows) result later ∧
      result.Gives forest later flows := by
  have hlive := live_eq_ok hscopes
  have hreached : ∀ flow ∈ flows.filter (isReachable forest), forest.Live flow.scope :=
    live_of_mem_filter
  unfold Gives
  generalize flows.filter (isReachable forest) = reachable at *
  obtain _ | ⟨first, rest⟩ := flows
  · exact absurd rfl hflows
  match reachable with
  | [] =>
    refine ⟨first, table, ?_, rfl⟩
    rw [join_of_live_nil hlive]
    exact htable.settles_pure first
  | [only] =>
    have honly := hfits only List.mem_cons_self
    refine ⟨only, table, ?_, honly.merges_self hforest htyped (hreached only List.mem_cons_self)⟩
    rw [join_of_live_singleton hlive]
    exact htable.settles_pure only
  | flow :: next :: others =>
    obtain ⟨result, later, hsettles, hmerges, _⟩ :=
      joinSeveral_settles hforest htable htyped stamp hreached hfits
    refine ⟨result, later, ?_, hmerges⟩
    rw [join_of_live_several hlive]
    exact hsettles

private theorem Merges.seen_eq_declared (hforest : forest.Sound) {flows : List Flow}
    (hmerges : result.Merges forest table flows) (hscope : scope ∈ forest.path result.scope)
    (hflow : flow ∈ flows)
    (hplain : flow.scope = scope ∨ ∀ name ∈ flow.slotNames, forest.Simple name) {name : Name}
    (hdiffers : forest.meaning? result.scope name ≠ forest.meaning? scope name) :
    flow.seen? forest scope name = forest.declared? scope name := by
  have haround := hmerges.mem_path hflow
  rw [← visible_or_declared, getElem?_visible]
  split
  next hsame =>
    cases hrefined : flow.refinement? name with
    | none => rfl
    | some type =>
      -- The branch would see past the group what the group does not see.
      exfalso
      rcases hplain with rfl | hsimple
      · exact hdiffers (hforest.mem_path_antisymm haround hscope ▸ rfl)
      · have hname := mem_slotNames_of_some hrefined
        exact hdiffers (hforest.meaning?_convex (hsimple name hname) haround hscope hsame)
  next => rfl

/-- A group contributes to a scope around it what its branches contribute there. -/
theorem Merges.seen_le_iff (hforest : forest.Sound) {flows : List Flow} (hflows : flows ≠ [])
    (hmerges : result.Merges forest table flows) (hscope : scope ∈ forest.path result.scope)
    (hplain : ∀ flow ∈ flows, flow.scope = scope ∨ ∀ name ∈ flow.slotNames, forest.Simple name)
    (name : Name) (bound : WithBot (Finset TypeId)) :
    table.value (result.seen? forest scope name) ≤ bound ↔
      ∀ flow ∈ flows, table.value (flow.seen? forest scope name) ≤ bound := by
  by_cases hsame : forest.meaning? result.scope name = forest.meaning? scope name
  · have hseen : ∀ flow : Flow,
        flow.seen? forest result.scope name = flow.seen? forest scope name := by
      intro flow
      rw [seen?, seen?, Forest.declared?, Forest.declared?, hsame]
    rw [seen?, if_pos hsame, (hmerges.joined name).least, List.forall_mem_map]
    simp only [hseen]
  · have hdeclared : ∀ flow ∈ flows,
        flow.seen? forest scope name = forest.declared? scope name := by
      intro flow hflow
      exact hmerges.seen_eq_declared hforest hscope hflow (hplain flow hflow) hsame
    rw [seen?, if_neg hsame]
    constructor
    · intro hbound flow hflow
      rw [hdeclared flow hflow]
      exact hbound
    · intro hbound
      obtain ⟨flow, hflow⟩ := List.exists_mem_of_ne_nil flows hflows
      rw [← hdeclared flow hflow]
      exact hbound flow hflow

/-- What merges groups of branches is like what merges the branches themselves. -/
theorem Merges.regroup (hforest : forest.Sound) (htable : table.Sound)
    {groups : List (Flow × List Flow)} {grouped flat : Flow}
    (hgroups : ∀ group ∈ groups, group.2 ≠ [] ∧ group.1.Merges forest table group.2)
    (hgrouped : grouped.Merges forest table (groups.map Prod.fst))
    (hflat : flat.Merges forest table (groups.flatMap Prod.snd))
    (hplain : (∀ flow ∈ groups.flatMap Prod.snd, ∀ name ∈ flow.slotNames, forest.Simple name) ∨
      ∀ flow ∈ groups.flatMap Prod.snd, ∀ other ∈ groups.flatMap Prod.snd,
        flow.scope = other.scope) :
    grouped.scope = flat.scope ∧
      ∀ name, grouped.effective? forest name = flat.effective? forest name := by
  have hnear : forest.NearestAround ((groups.flatMap Prod.snd).map Flow.scope) grouped.scope := by
    intro id
    rw [hgrouped.scope id, List.forall_mem_map, List.forall_mem_map, List.forall_mem_map,
      List.forall_mem_flatMap]
    refine forall₂_congr fun group hgroup => ?_
    rw [(hgroups group hgroup).2.scope id, List.forall_mem_map]
  have hsame : grouped.scope = flat.scope :=
    hforest.nearestAround_unique hgrouped.live.lt_size hflat.live.lt_size hnear hflat.scope
  refine ⟨hsame, fun name => ?_⟩
  have hgroup : ∀ group ∈ groups, ∀ bound,
      table.value (group.1.seen? forest grouped.scope name) ≤ bound ↔
        ∀ flow ∈ group.2, table.value (flow.seen? forest grouped.scope name) ≤ bound := by
    intro group hgroup bound
    obtain ⟨hbranches, hmerges⟩ := hgroups group hgroup
    have hscope := hgrouped.mem_path (List.mem_map_of_mem hgroup)
    refine hmerges.seen_le_iff hforest hbranches hscope (fun flow hflow => ?_) name bound
    have hmem : flow ∈ groups.flatMap Prod.snd := List.mem_flatMap.mpr ⟨group, hgroup, hflow⟩
    rcases hplain with hsimple | hscopes
    · exact .inr (hsimple flow hmem)
    · -- The nearest scope around branches of one scope is this scope.
      left
      have hsize := Forest.lt_size_of_mem_path (hmerges.mem_path hflow)
      refine hforest.nearestAround_unique hsize hgrouped.live.lt_size ?_ hnear
      refine Forest.nearestAround_of_forall (List.ne_nil_of_mem (List.mem_map_of_mem hmem)) ?_
      rw [List.forall_mem_map]
      exact fun other hother => (hscopes flow hmem other hother).symm
  apply htable.eq_of_value_eq (hgrouped.joined name).holds (hflat.joined name).holds
  -- Both are the least types above the same contributions.
  refine eq_of_forall_ge_iff fun bound => ?_
  rw [(hgrouped.joined name).least, (hflat.joined name).least, List.forall_mem_map,
    List.forall_mem_map, List.forall_mem_map, List.forall_mem_flatMap, ← hsame]
  exact forall₂_congr fun group hmem => hgroup group hmem bound

def reachableGroups (forest : Forest) (groups : List (Flow × List Flow)) :
    List (Flow × List Flow) :=
  (groups.filter fun group => group.1.isReachable forest).map fun group =>
    (group.1, group.2.filter (isReachable forest))

theorem map_fst_reachableGroups (forest : Forest) (groups : List (Flow × List Flow)) :
    (reachableGroups forest groups).map Prod.fst =
      (groups.map Prod.fst).filter (isReachable forest) := by
  rw [reachableGroups, List.map_map, List.filter_map]
  rfl

section Groups
variable {groups : List (Flow × List Flow)}

/-- Groups that are not reachable have no reachable branches. -/
theorem flatMap_snd_reachableGroups
    (hgives : ∀ group ∈ groups, group.1.Gives forest table group.2) :
    (reachableGroups forest groups).flatMap Prod.snd =
      (groups.flatMap Prod.snd).filter (isReachable forest) := by
  induction groups with
  | nil => rfl
  | cons group groups ih =>
    obtain ⟨hgroup, hgives⟩ := List.forall_mem_cons.mp hgives
    rw [List.flatMap_cons, List.filter_append, ← ih hgives, reachableGroups, List.filter_cons]
    by_cases hreachable : group.1.isReachable forest = true
    · rw [if_pos hreachable, List.map_cons, List.flatMap_cons, reachableGroups]
    · have hempty := not_not.mp (mt hgroup.isReachable_iff.mpr hreachable)
      rw [if_neg hreachable, hempty, List.nil_append, reachableGroups]

theorem merges_of_mem_reachableGroups
    (hgives : ∀ group ∈ groups, group.1.Gives forest table group.2) {pair : Flow × List Flow}
    (hpair : pair ∈ reachableGroups forest groups) :
    pair.2 ≠ [] ∧ pair.1.Merges forest table pair.2 := by
  obtain ⟨group, hgroup, rfl⟩ := List.mem_map.mp hpair
  obtain ⟨hmem, hreachable⟩ := List.mem_filter.mp hgroup
  have hsome := (hgives group hmem).isReachable_iff.mp hreachable
  exact ⟨hsome, (hgives group hmem).of_ne_nil hsome⟩

private theorem Gives.eq_of_nil {grouped flat : Flow}
    (hgroups : ∀ group ∈ groups, group.2 ≠ [] ∧ group.1.Gives forest table group.2)
    (hgrouped : grouped.Gives forest table (groups.map Prod.fst))
    (hflat : flat.Gives forest table (groups.flatMap Prod.snd))
    (hnone : (groups.flatMap Prod.snd).filter (isReachable forest) = []) : grouped = flat := by
  have hdead : (groups.map Prod.fst).filter (isReachable forest) = [] := by
    have hgives := fun group hgroup => (hgroups group hgroup).2
    rw [← flatMap_snd_reachableGroups hgives, List.flatMap_eq_nil_iff] at hnone
    rw [← map_fst_reachableGroups, List.map_eq_nil_iff, List.eq_nil_iff_forall_not_mem]
    intro pair hpair
    exact (merges_of_mem_reachableGroups hgives hpair).1 (hnone pair hpair)
  have hfirst := hgrouped.of_nil hdead
  have hall := hflat.of_nil hnone
  cases groups with
  | nil => cases hfirst
  | cons group groups =>
    have hgives := (hgroups group List.mem_cons_self).2
    rw [List.flatMap_cons, List.filter_append, List.append_eq_nil_iff] at hnone
    rw [List.flatMap_cons, List.head?_append, hgives.of_nil hnone.1, Option.some_or] at hall
    rw [← Option.some.inj hall]
    exact (Option.some.inj hfirst).symm

private theorem Gives.regroup (hforest : forest.Sound) (htable : table.Sound) {grouped flat : Flow}
    (hgroups : ∀ group ∈ groups, group.2 ≠ [] ∧ group.1.Gives forest table group.2)
    (hgrouped : grouped.Gives forest table (groups.map Prod.fst))
    (hflat : flat.Gives forest table (groups.flatMap Prod.snd))
    (hplain : (∀ flow ∈ (groups.flatMap Prod.snd).filter (isReachable forest),
        ∀ name ∈ flow.slotNames, forest.Simple name) ∨
      ∀ flow ∈ (groups.flatMap Prod.snd).filter (isReachable forest),
        ∀ other ∈ (groups.flatMap Prod.snd).filter (isReachable forest),
          flow.scope = other.scope) :
    grouped = flat ∨ ((grouped.Fits forest table ∧ flat.Fits forest table) ∧
      grouped.scope = flat.scope ∧
      ∀ name, grouped.effective? forest name = flat.effective? forest name) := by
  by_cases hnone : (groups.flatMap Prod.snd).filter (isReachable forest) = []
  · exact .inl (Gives.eq_of_nil hgroups hgrouped hflat hnone)
  · right
    have hgives := fun group hgroup => (hgroups group hgroup).2
    have hflat := hflat.of_ne_nil hnone
    rw [← flatMap_snd_reachableGroups hgives] at hnone hflat hplain
    have hgrouped : grouped.Merges forest table
        ((reachableGroups forest groups).map Prod.fst) := by
      rw [map_fst_reachableGroups]
      apply hgrouped.of_ne_nil
      rw [← map_fst_reachableGroups]
      intro hdead
      rw [List.map_eq_nil_iff.mp hdead] at hnone
      exact hnone rfl
    have hmerges : ∀ pair ∈ reachableGroups forest groups,
        pair.2 ≠ [] ∧ pair.1.Merges forest table pair.2 :=
      fun pair hpair => merges_of_mem_reachableGroups hgives hpair
    exact ⟨⟨hgrouped.fits, hflat.fits⟩,
      Merges.regroup hforest htable hmerges hgrouped hflat hplain⟩

end Groups

/-- Joining in two groups is joining all at once: the results have the same scope, agree either way
round, and have the same effective type for every name with a spelling. The names that are refined
must be simple, or all reachable branches must have one scope. -/
theorem join_regroup (hforest : forest.Built) (htable : table.Built) (htyped : forest.Typed table)
    {xs ys : List Flow} (hxs : xs ≠ []) (hys : ys ≠ [])
    (hscopes : ∀ flow ∈ xs ++ ys, flow.scope.raw < forest.scopes.size)
    (hfits : ∀ flow ∈ (xs ++ ys).filter (isReachable forest), flow.Fits forest table)
    (hplain : (∀ flow ∈ (xs ++ ys).filter (isReachable forest), ∀ name ∈ flow.slotNames,
        forest.Simple name) ∨
      ∀ flow ∈ (xs ++ ys).filter (isReachable forest),
        ∀ other ∈ (xs ++ ys).filter (isReachable forest), flow.scope = other.scope)
    (s₁ s₂ s₃ s₄ : Nat) :
    let joins : Attempt Fault TypeTable (Flow × Flow) := do
      let group ← join s₁ forest xs
      let group' ← join s₂ forest ys
      let grouped ← join s₃ forest [group, group']
      let flat ← join s₄ forest (xs ++ ys)
      return (grouped, flat)
    ∃ grouped flat later, joins.run.run table = (.ok (grouped, flat), later) ∧
      grouped.scope = flat.scope ∧
      agrees later forest grouped flat = .ok true ∧ agrees later forest flat grouped = .ok true ∧
      ∀ name, forest.Interned name → ∃ type,
        grouped.slotType forest name = .ok type ∧ flat.slotType forest name = .ok type := by
  have hsound := hforest.sound
  obtain ⟨hscopesX, hscopesY⟩ := List.forall_mem_append.mp hscopes
  have hfits' := hfits
  rw [List.filter_append] at hfits'
  obtain ⟨hfitsX, hfitsY⟩ := List.forall_mem_append.mp hfits'
  obtain ⟨group, t₁, hrun₁, hgives₁⟩ :=
    join_settles hsound htable.sound htyped s₁ hxs hscopesX hfitsX
  obtain ⟨group', t₂, hrun₂, hgives₂⟩ :=
    join_settles hsound hrun₁.sound (htyped.grow hrun₁.grows) s₂ hys hscopesY
      fun flow hflow => (hfitsY flow hflow).grow hrun₁.grows
  have hgrows₂ := hrun₁.grows.trans hrun₂.grows
  have hgroup := hgives₁.grow hrun₂.grows
  have hscopes₃ : ∀ flow ∈ [group, group'], flow.scope.raw < forest.scopes.size := by
    simp [hgroup.lt_size hscopesX, hgives₂.lt_size hscopesY]
  have hfits₃ : ∀ flow ∈ [group, group'].filter (isReachable forest), flow.Fits forest t₂ := by
    intro flow hflow
    obtain ⟨hmem, hreachable⟩ := List.mem_filter.mp hflow
    simp only [List.mem_cons, List.not_mem_nil, or_false] at hmem
    rcases hmem with rfl | rfl
    · exact hgroup.fits hreachable
    · exact hgives₂.fits hreachable
  obtain ⟨grouped, t₃, hrun₃, hgives₃⟩ :=
    join_settles hsound hrun₂.sound (htyped.grow hgrows₂) s₃ (List.cons_ne_nil _ _) hscopes₃ hfits₃
  have hgrows₃ := hgrows₂.trans hrun₃.grows
  obtain ⟨flat, t₄, hrun₄, hgives₄⟩ :=
    join_settles hsound hrun₃.sound (htyped.grow hgrows₃) s₄
      (List.append_ne_nil_of_left_ne_nil hxs ys) hscopes
      fun flow hflow => (hfits flow hflow).grow hgrows₃
  have hgrows₄ := hrun₃.grows.trans hrun₄.grows
  have hgroups : ∀ pair ∈ [(group, xs), (group', ys)],
      pair.2 ≠ [] ∧ pair.1.Gives forest t₄ pair.2 := by
    simp [hxs, hys, hgroup.grow hgrows₄, hgives₂.grow hgrows₄]
  have hall : [(group, xs), (group', ys)].flatMap Prod.snd = xs ++ ys := by simp
  rw [← hall] at hgives₄ hplain
  have hresult := Gives.regroup hsound hrun₄.sound hgroups (hgives₃.grow hrun₄.grows) hgives₄ hplain
  rw [hall] at hgives₄
  refine ⟨grouped, flat, t₄, ?_, ?_⟩
  · have hpair : t₄.Settles (pure (grouped, flat) : Attempt Fault TypeTable _) (grouped, flat) t₄ :=
      hrun₄.sound.settles_pure (grouped, flat)
    exact (hrun₁.bind (hrun₂.bind (hrun₃.bind (hrun₄.bind hpair)))).run
  rcases hresult with rfl | ⟨⟨hfitsG, hfitsF⟩, hscope, heffective⟩
  · have hsize := hgives₄.lt_size hscopes
    refine ⟨rfl, agrees_self _ _ _, agrees_self _ _ _, fun name hname => ?_⟩
    exact ⟨_, slotType_eq hsound hsize hname, slotType_eq hsound hsize hname⟩
  · refine ⟨hscope, ?_, ?_, fun name hname => ?_⟩
    · exact agrees_of_effective hsound hfitsG.names hfitsF.names hfitsG.scope hscope heffective
    · exact agrees_of_effective hsound hfitsF.names hfitsG.names hfitsF.scope hscope.symm
        fun name => (heffective name).symm
    · refine ⟨_, slotType_eq hsound hfitsG.scope hname, ?_⟩
      rw [heffective name]
      exact slotType_eq hsound hfitsF.scope hname

private def crossingOther : Flow := (entry 5 ⟨1⟩).refine 6 ⟨5⟩ ⟨2⟩

/-- A branch of the block is joined with one from outside before the other branch of the block. -/
theorem join_regroup_of_crossing :
    let joins : Attempt Fault TypeTable (Flow × Flow) := do
      let group ← join 7 crossing crossingBranches
      let group' ← join 8 crossing [crossingOther]
      let grouped ← join 9 crossing [group, group']
      let flat ← join 10 crossing (crossingBranches ++ [crossingOther])
      return (grouped, flat)
    ∃ grouped flat later, joins.run.run TypeTable.basic = (.ok (grouped, flat), later) ∧
      grouped.scope = flat.scope ∧
      agrees later crossing grouped flat = .ok true ∧
      agrees later crossing flat grouped = .ok true ∧
      ∃ type, grouped.slotType crossing ⟨5⟩ = .ok type ∧ flat.slotType crossing ⟨5⟩ = .ok type := by
  have hsimple : crossing.Simple ⟨5⟩ := ⟨"x", by decide +kernel, by decide +kernel⟩
  have hscopes : ∀ flow ∈ crossingBranches ++ [crossingOther],
      flow.scope.raw < crossing.scopes.size := by
    decide +kernel
  have hfits : ∀ flow ∈ (crossingBranches ++ [crossingOther]).filter (isReachable crossing),
      flow.Fits crossing TypeTable.basic := by
    rw [List.filter_append]
    refine List.forall_mem_append.mpr ⟨crossingBranches_fit, fun flow hflow => ?_⟩
    obtain rfl := List.mem_singleton.mp (List.mem_of_mem_filter hflow)
    exact (fits_entry 5 (by decide +kernel)).refine 6 crossing_interned (by decide)
  have hnames : ∀ flow ∈ (crossingBranches ++ [crossingOther]).filter (isReachable crossing),
      ∀ name ∈ flow.slotNames, crossing.Simple name := by
    have honly : ∀ flow ∈ crossingBranches ++ [crossingOther],
        ∀ name ∈ flow.slotNames, name = ⟨5⟩ := by
      decide +kernel
    intro flow hflow name hname
    rw [honly flow (List.mem_of_mem_filter hflow) name hname]
    exact hsimple
  obtain ⟨grouped, flat, later, hrun, hscope, hagrees, hagrees', htypes⟩ :=
    join_regroup crossing_built TypeTable.Built.basic crossing_typed
      (List.cons_ne_nil _ _ : crossingBranches ≠ []) (List.cons_ne_nil _ _ : [crossingOther] ≠ [])
      hscopes hfits (.inl hnames) 7 8 9 10
  exact ⟨grouped, flat, later, hrun, hscope, hagrees, hagrees', htypes ⟨5⟩ crossing_interned⟩

end FlowTyping.Flow
