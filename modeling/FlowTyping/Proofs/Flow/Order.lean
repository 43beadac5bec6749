import FlowTyping.Proofs.Flow.Regrouping

/-!
# Branches in any order

A join asks the lattice from left to right, numbers the unions that it has to build, and passes a
single branch on as it is. None of this can be seen in the result: lists of branches with the same
reachable members, in any order and however often, have joins that cannot be told apart.
-/
namespace FlowTyping.Flow
open TypeLattice Attempt
variable {forest : Forest} {table later : TypeTable} {scope : ScopeId} {flow made : Flow}
  {stamp : Nat}

private theorem tells_of_joinedSlots {branches : List Slots} {names : List Name} {slots : Slots}
    (hrun : (joinedSlots forest scope branches names).run.run table = (.ok slots, later)) :
    ∀ name ∈ names, forest.Tells scope name := by
  induction names generalizing table slots with
  | nil => simp
  | cons first names ih =>
    rw [joinedSlots] at hrun
    obtain ⟨declared, _, hdeclared, hrun⟩ := run_bind_eq_ok_iff.mp hrun
    obtain ⟨joined, _, _, hrun⟩ := run_bind_eq_ok_iff.mp hrun
    obtain ⟨current, _, _, hrun⟩ := run_bind_eq_ok_iff.mp hrun
    obtain ⟨rest, between, hrest, hlast⟩ := run_bind_eq_ok_iff.mp hrun
    have hlater : between = later := by
      cases joined with
      | none => exact (run_pure_eq_ok_iff.mp hlast).2
      | some type => exact (run_pure_eq_ok_iff.mp hlast).2
    intro name hname
    rcases List.mem_cons.mp hname with rfl | hname
    · exact Forest.tells_of_declaredType (run_answer_eq_ok_iff.mp hdeclared).1
    · exact ih (hlater ▸ hrest) name hname

/-- What a join that succeeds has made of several reachable branches, and what could be told on the
way. -/
theorem gathers_of_joinSeveral (hforest : forest.Sound) (htable : table.Sound)
    (htyped : forest.Typed table) {others : List Flow}
    (hlive : ∀ branch ∈ flow :: others, forest.Live branch.scope)
    (htypes : ∀ branch ∈ flow :: others, ∀ name, table.Holds (branch.refinement? name))
    (hrun : (joinSeveral stamp forest flow others).run.run table = (.ok made, later)) :
    later.Sound ∧ table.Grows later ∧ made.Gathers forest later (flow :: others) ∧
      (∀ branch ∈ flow :: others, ∀ name ∈ branch.visible forest made.scope,
        forest.Tells made.scope name) ∧
      ∀ name, name ∈ made.slotNames ↔
        made.effective? forest name ≠ forest.declared? made.scope name := by
  obtain ⟨scope, _, hscope, hrest⟩ := run_bind_eq_ok_iff.mp hrun
  obtain ⟨haround, rfl⟩ := run_answer_eq_ok_iff.mp hscope
  obtain ⟨branches, _, hanswers, hrest⟩ := run_bind_eq_ok_iff.mp hrest
  obtain ⟨hbranches, rfl⟩ := run_answer_eq_ok_iff.mp hanswers
  obtain ⟨slots, _, hslots, _⟩ := run_bind_eq_ok_iff.mp hrest
  have hvisible : branches = (flow :: others).map (visible forest scope) := by
    have hall := Except.mapM_eq_ok_iff.mp hbranches
    rw [← List.forall₂_eq_eq_eq, List.forall₂_map_right_iff]
    exact hall.flip.imp fun slots branch hslots => eq_visible_of_refinementsIn hforest hslots
  rw [hvisible] at hbranches hslots
  have htells : ∀ branch ∈ flow :: others, ∀ name ∈ branch.visible forest scope,
      forest.Tells scope name := by
    intro branch hbranch name hname
    exact tells_of_joinedSlots hslots name (mem_keys_iff_visible.mpr ⟨branch, hbranch, hname⟩)
  obtain ⟨result, last, hsettles, rfl, hgathers, hrefined⟩ :=
    joinSeveral_gathers hforest htable htyped stamp hlive htypes haround hbranches htells
  obtain ⟨hresult, rfl⟩ := Prod.mk.inj (hsettles.run.symm.trans hrun)
  obtain rfl := Except.ok.inj hresult
  exact ⟨hsettles.sound, hsettles.grows, hgathers, htells, hrefined⟩

private theorem gathers_self (hforest : forest.Sound) (htyped : forest.Typed table)
    (hlive : forest.Live flow.scope) (htypes : ∀ name, table.Holds (flow.refinement? name)) :
    flow.Gathers forest table [flow] := by
  refine ⟨hlive, Forest.nearestAround_singleton flow.scope, fun name => ?_, fun name hname => ?_⟩
  · have hholds := holds_seen hforest htyped htypes flow.scope name
    rw [seen?_self] at hholds
    refine .of_forall (List.cons_ne_nil _ _) ?_ hholds
    intro slot hslot
    rw [List.mem_singleton.mp hslot, seen?_self]
  · refine ⟨flow, List.mem_cons_self, ?_⟩
    rw [Std.ExtTreeMap.mem_iff_isSome_getElem?, getElem?_visible, if_pos rfl]
    exact mem_slotNames.mp hname

private theorem gathers_of_join (hforest : forest.Sound) (htable : table.Sound)
    (htyped : forest.Typed table) {flows : List Flow}
    (hsome : flows.filter (isReachable forest) ≠ [])
    (htypes : ∀ branch ∈ flows.filter (isReachable forest), ∀ name,
      table.Holds (branch.refinement? name))
    (hrun : (join stamp forest flows).run.run table = (.ok made, later)) :
    later.Sound ∧ table.Grows later ∧
      made.Gathers forest later (flows.filter (isReachable forest)) ∧
      (flows.filter (isReachable forest) = [made] ∨
        ∀ branch ∈ flows.filter (isReachable forest), ∀ name ∈ branch.visible forest made.scope,
          forest.Tells made.scope name) := by
  have hlive : ∀ branch ∈ flows.filter (isReachable forest), forest.Live branch.scope :=
    live_of_mem_filter
  rcases join_cases hrun with ⟨_, _, hnone, _⟩ | ⟨honly, rfl⟩ | ⟨flow, next, others, hmany, hrun⟩
  · exact absurd (live_eq_filter hnone).symm hsome
  · rw [← live_eq_filter honly] at hlive htypes ⊢
    have hself := List.mem_singleton_self made
    exact ⟨htable, .refl _, gathers_self hforest htyped (hlive made hself) (htypes made hself),
      .inl rfl⟩
  · rw [← live_eq_filter hmany] at hlive htypes ⊢
    obtain ⟨hsound, hgrows, hgathers, htells, _⟩ :=
      gathers_of_joinSeveral hforest htable htyped hlive htypes hrun
    exact ⟨hsound, hgrows, hgathers, .inr htells⟩

section SameBranches
variable {other : Flow} {flows flows' : List Flow}

theorem Gathers.grow (hgathers : made.Gathers forest table flows) (hgrows : table.Grows later) :
    made.Gathers forest later flows :=
  ⟨hgathers.live, hgathers.scope, fun name => (hgathers.joined name).grow hgrows,
    hgathers.refined⟩

/-- What gathers flow scopes with the same scopes and contributions has one scope and the same
effective types. -/
theorem Gathers.eq_of_seen (hforest : forest.Sound) (htable : table.Sound)
    (hscopes : ∀ id, id ∈ flows.map Flow.scope ↔ id ∈ flows'.map Flow.scope)
    (hseen : ∀ scope name slot,
      slot ∈ flows.map (seen? forest scope name) ↔ slot ∈ flows'.map (seen? forest scope name))
    (hmade : made.Gathers forest table flows) (hother : other.Gathers forest table flows') :
    made.scope = other.scope ∧
      ∀ name, made.effective? forest name = other.effective? forest name := by
  have hnear : forest.NearestAround (flows.map Flow.scope) other.scope := by
    intro id
    rw [hother.scope id]
    simp only [hscopes]
  have hscope : made.scope = other.scope :=
    hforest.nearestAround_unique hmade.live.lt_size hother.live.lt_size hmade.scope hnear
  refine ⟨hscope, fun name => ?_⟩
  apply htable.eq_of_value_eq (hmade.joined name).holds (hother.joined name).holds
  -- The least type above some contributions does not depend on how they are listed.
  refine eq_of_forall_ge_iff fun bound => ?_
  rw [(hmade.joined name).least, (hother.joined name).least, hscope]
  simp only [hseen]

private theorem tells_of_same_branches (hsame : ∀ flow, flow ∈ flows ↔ flow ∈ flows')
    (hscope : made.scope = other.scope) (hmade : made.Gathers forest table flows)
    (hother : other.Gathers forest table flows')
    (htells : flows = [made] ∨ ∀ branch ∈ flows, ∀ name ∈ branch.visible forest made.scope,
      forest.Tells made.scope name)
    (htells' : flows' = [other] ∨ ∀ branch ∈ flows', ∀ name ∈ branch.visible forest other.scope,
      forest.Tells other.scope name) :
    made = other ∨ ∀ name, name ∈ made.slotNames ∨ name ∈ other.slotNames →
      forest.Tells made.scope name := by
  have hseen : ∀ name, name ∈ made.slotNames ∨ name ∈ other.slotNames →
      ∃ branch ∈ flows, name ∈ branch.visible forest made.scope := by
    rintro name (hname | hname)
    · exact hmade.refined name hname
    · obtain ⟨branch, hbranch, hvisible⟩ := hother.refined name hname
      exact ⟨branch, (hsame branch).mpr hbranch, hscope ▸ hvisible⟩
  rcases htells with honly | htells
  · rcases htells' with honly' | htells'
    · -- Each is the only branch of its join, and the joins have the same branches.
      left
      have hmem : made ∈ flows' := (hsame made).mp (honly ▸ List.mem_singleton_self made)
      rw [honly'] at hmem
      exact List.mem_singleton.mp hmem
    · right
      intro name hname
      obtain ⟨branch, hbranch, hvisible⟩ := hseen name hname
      rw [hscope] at hvisible ⊢
      exact htells' branch ((hsame branch).mp hbranch) name hvisible
  · right
    intro name hname
    obtain ⟨branch, hbranch, hvisible⟩ := hseen name hname
    exact htells branch hbranch name hvisible

end SameBranches

/-- Joins of lists with the same reachable branches, in any order and with any repetitions, and with
any unreachable branches among them, have the same scope, agree either way round, and have the same
effective type for every name with a spelling. They succeed if all refined names have one. -/
theorem join_of_same_branches (hforest : forest.Built) (htable : table.Built)
    (htyped : forest.Typed table) {fs gs : List Flow}
    (hscopes : ∀ flow ∈ fs ++ gs, flow.scope.raw < forest.scopes.size)
    (hsame : ∀ flow, flow ∈ fs.filter (isReachable forest) ↔ flow ∈ gs.filter (isReachable forest))
    (hsome : fs.filter (isReachable forest) ≠ [])
    (htypes : ∀ flow ∈ fs.filter (isReachable forest), ∀ name,
      table.Holds (flow.refinement? name)) (s₁ s₂ : Nat) :
    let joins : Attempt Fault TypeTable (Flow × Flow) := do
      let first ← join s₁ forest fs
      let second ← join s₂ forest gs
      return (first, second)
    ((∀ flow ∈ fs.filter (isReachable forest), ∀ name ∈ flow.slotNames, forest.Interned name) →
      ∃ results later, joins.run.run table = (.ok results, later)) ∧
    ∀ first second later, joins.run.run table = (.ok (first, second), later) →
      first.scope = second.scope ∧
      agrees later forest first second = .ok true ∧ agrees later forest second first = .ok true ∧
      ∀ name, forest.Interned name → ∃ type,
        first.slotType forest name = .ok type ∧ second.slotType forest name = .ok type := by
  have hsound := hforest.sound
  obtain ⟨hscopesF, hscopesG⟩ := List.forall_mem_append.mp hscopes
  obtain ⟨branch, hbranch⟩ := List.exists_mem_of_ne_nil _ hsome
  have hsome' : gs.filter (isReachable forest) ≠ [] := List.ne_nil_of_mem ((hsame branch).mp hbranch)
  refine ⟨fun hnames => ?_, fun first second later hrun => ?_⟩
  · have hfits : ∀ flow ∈ fs.filter (isReachable forest), flow.Fits forest table :=
      fun flow hflow => ⟨hscopesF flow (List.mem_of_mem_filter hflow), hnames flow hflow,
        htypes flow hflow⟩
    obtain ⟨first, between, hrun₁, _⟩ := join_settles hsound htable.sound htyped s₁
      (List.ne_nil_of_mem (List.mem_of_mem_filter hbranch)) hscopesF hfits
    obtain ⟨second, later, hrun₂, _⟩ := join_settles hsound hrun₁.sound (htyped.grow hrun₁.grows) s₂
      (List.ne_nil_of_mem (List.mem_of_mem_filter ((hsame branch).mp hbranch))) hscopesG
      fun flow hflow => (hfits flow ((hsame flow).mpr hflow)).grow hrun₁.grows
    refine ⟨(first, second), later, ?_⟩
    exact (hrun₁.bind (hrun₂.bind (hrun₂.sound.settles_pure (first, second)))).run
  · obtain ⟨made, between, hrun₁, hrest⟩ := run_bind_eq_ok_iff.mp hrun
    obtain ⟨other, last, hrun₂, hpair⟩ := run_bind_eq_ok_iff.mp hrest
    obtain ⟨hresults, rfl⟩ := run_pure_eq_ok_iff.mp hpair
    obtain ⟨rfl, rfl⟩ := Prod.mk.inj hresults
    obtain ⟨hbetween, hgrows, hfirst, htells⟩ :=
      gathers_of_join hsound htable.sound htyped hsome htypes hrun₁
    obtain ⟨hlater, hgrows', hsecond, htells'⟩ :=
      gathers_of_join hsound hbetween (htyped.grow hgrows) hsome'
        (fun flow hflow name => hgrows.holds (htypes flow ((hsame flow).mpr hflow) name)) hrun₂
    have hfirst := hfirst.grow hgrows'
    obtain ⟨hscope, heffective⟩ := hfirst.eq_of_seen hsound hlater
      (fun id => by simp only [List.mem_map, hsame])
      (fun scope name slot => by simp only [List.mem_map, hsame]) hsecond
    have hsize := hfirst.live.lt_size
    have hagrees : agrees last forest made other = .ok true ∧
        agrees last forest other made = .ok true := by
      rcases tells_of_same_branches hsame hscope hfirst hsecond htells htells' with rfl | htold
      · exact ⟨agrees_self _ _ _, agrees_self _ _ _⟩
      · refine ⟨agrees_of_tells hscope hsize htold heffective,
          agrees_of_tells hscope.symm (hscope ▸ hsize) (fun name hname => ?_)
            fun name => (heffective name).symm⟩
        rw [← hscope]
        exact htold name hname.symm
    refine ⟨hscope, hagrees.1, hagrees.2, fun name hname => ?_⟩
    refine ⟨_, slotType_eq hsound hsize hname, ?_⟩
    rw [heffective name]
    exact slotType_eq hsound hsecond.live.lt_size hname

private def crossingAgain : List Flow :=
  crossingBranches.reverse ++ crossingBranches.take 1

theorem join_of_same_branches_of_crossing :
    let joins : Attempt Fault TypeTable (Flow × Flow) := do
      let first ← join 5 crossing crossingBranches
      let second ← join 6 crossing crossingAgain
      return (first, second)
    ∃ first second later, joins.run.run TypeTable.basic = (.ok (first, second), later) ∧
      first.scope = second.scope ∧
      agrees later crossing first second = .ok true ∧
      agrees later crossing second first = .ok true ∧
      ∃ type, first.slotType crossing ⟨5⟩ = .ok type ∧ second.slotType crossing ⟨5⟩ = .ok type := by
  have hagain : crossingAgain.filter (isReachable crossing) =
      (crossingBranches.filter (isReachable crossing)).reverse ++ crossingBranches.take 1 := by
    decide +kernel
  have hscopes : ∀ flow ∈ crossingBranches ++ crossingAgain,
      flow.scope.raw < crossing.scopes.size := by decide +kernel
  have hsame : ∀ flow, flow ∈ crossingBranches.filter (isReachable crossing) ↔
      flow ∈ crossingAgain.filter (isReachable crossing) := by
    intro flow
    rw [hagain, crossingBranches_reachable, List.mem_append, List.mem_reverse]
    exact ⟨.inl, fun hflow => hflow.elim id fun hfirst =>
      List.take_subset_take_left crossingBranches (by decide) hfirst⟩
  have hsome : crossingBranches.filter (isReachable crossing) ≠ [] := by
    rw [crossingBranches_reachable]
    exact List.cons_ne_nil _ _
  obtain ⟨hsucceeds, hequal⟩ :=
    join_of_same_branches crossing_built TypeTable.Built.basic crossing_typed hscopes hsame hsome
      (fun flow hflow => (crossingBranches_fit flow hflow).types) 5 6
  obtain ⟨⟨first, second⟩, later, hrun⟩ :=
    hsucceeds fun flow hflow => (crossingBranches_fit flow hflow).names
  obtain ⟨hscope, hagrees, hagrees', htypes⟩ := hequal first second later hrun
  exact ⟨first, second, later, hrun, hscope, hagrees, hagrees', htypes ⟨5⟩ crossing_interned⟩

end FlowTyping.Flow
