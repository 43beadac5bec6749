import FlowTyping.Proofs.Flow.Twins

/-!
# The same steps from twins

Agreement in one scope is kept by whatever is done to both flow scopes in the same way, so an
analysis may go on from either of them: one step makes twins of twins, and so does any sequence of
steps.
-/
namespace FlowTyping.Flow
open TypeLattice Attempt

/-- A step from one flow scope to the next. A join puts it between other flow scopes. -/
inductive Move where
  | child
  | enter (scope : ScopeId)
  | refine (name : Name) (type : TypeId)
  | compact
  | join (before after : List Flow)

structure Known (flow : Flow) (forest : Forest) (table : TypeTable) : Prop where
  scope : flow.scope.raw < forest.scopes.size
  types : ∀ name, table.Holds (flow.refinement? name)

namespace Move

def apply (forest : Forest) (stamp : ℕ) (flow : Flow) : Move → Attempt Fault TypeTable Flow
  | child => return flow.child stamp
  | enter scope => .answer (flow.enter stamp forest scope)
  | refine name type => return flow.refine stamp name type
  | compact => return flow.compact stamp
  | join before after => Flow.join stamp forest (before ++ flow :: after)

/-- What steps one after another make of a flow scope. Every step has a stamp of its own. -/
def applyAll (forest : Forest) : ℕ → Flow → List Move → Attempt Fault TypeTable Flow
  | _, flow, [] => pure flow
  | stamp, flow, move :: moves => do
    let next ← move.apply forest stamp flow
    applyAll forest (stamp + 1) next moves

def Known (forest : Forest) (table : TypeTable) : Move → Prop
  | child | compact => True
  | enter scope => scope.raw < forest.scopes.size
  | refine _ type => table.Known type
  | join before after => ∀ flow ∈ before ++ after, flow.Known forest table

def Spelled (forest : Forest) : Move → Prop
  | child | enter _ | compact => True
  | refine name _ => forest.Interned name
  | join before after => ∀ flow ∈ before ++ after, ∀ name ∈ flow.slotNames, forest.Interned name

end Move

variable {forest : Forest} {table table' later later' last : TypeTable} {f g f' g' flow made : Flow}
  {move : Move} {moves : List Move} {s s' : ℕ}

/-- A known flow scope, at a time when the table is in form and the types of all variables are
known. -/
structure Ready (flow : Flow) (forest : Forest) (table : TypeTable) : Prop
    extends flow.Known forest table where
  sound : table.Sound
  typed : forest.Typed table

theorem Known.grow (hknown : flow.Known forest table) (hgrows : table.Grows later) :
    flow.Known forest later :=
  ⟨hknown.scope, fun name => hgrows.holds (hknown.types name)⟩

theorem Known.fits (hknown : flow.Known forest table)
    (hnames : ∀ name ∈ flow.slotNames, forest.Interned name) : flow.Fits forest table :=
  ⟨hknown.scope, hnames, hknown.types⟩

theorem Known.of_refinements (hknown : flow.Known forest table) (hscope : made.scope = flow.scope)
    (hrefinements : ∀ name, made.refinement? name = flow.refinement? name) :
    made.Known forest table := by
  refine ⟨hscope ▸ hknown.scope, fun name => ?_⟩
  rw [hrefinements]
  exact hknown.types name

theorem Fits.known (hfits : flow.Fits forest table) : flow.Known forest table :=
  ⟨hfits.scope, hfits.types⟩

theorem Fits.of_refinements (hfits : flow.Fits forest table) (hscope : made.scope = flow.scope)
    (hrefinements : ∀ name, made.refinement? name = flow.refinement? name) :
    made.Fits forest table := by
  refine (hfits.known.of_refinements hscope hrefinements).fits fun name hname => ?_
  rw [mem_slotNames, hrefinements] at hname
  exact hfits.names name (mem_slotNames.mpr hname)

theorem Known.refine (hknown : flow.Known forest table) (stamp : ℕ) (name : Name) {type : TypeId}
    (htype : table.Known type) : (flow.refine stamp name type).Known forest table := by
  refine ⟨hknown.scope, fun other => ?_⟩
  rw [refinement?_refine]
  split
  next => exact fun type' htype' => Option.some.inj htype' ▸ htype
  next => exact hknown.types other

theorem Known.enter (hforest : forest.Sound) (hknown : flow.Known forest table) {scope : ScopeId}
    (hscope : scope.raw < forest.scopes.size) (hmade : flow.enter s forest scope = .ok made) :
    made.Known forest table := by
  refine ⟨scope_of_enter hmade ▸ hscope, fun name => ?_⟩
  rw [(refinement?_of_enter hforest hmade name).2]
  split
  next => exact hknown.types name
  next => exact fun type htype => by cases htype

theorem Known.join (hforest : forest.Sound) (htable : table.Sound) (htyped : forest.Typed table)
    {flows : List Flow} (hflows : ∀ flow ∈ flows, flow.Known forest table)
    (hrun : (join s forest flows).run.run table = (.ok made, later)) :
    later.Sound ∧ table.Grows later ∧ made.Known forest later := by
  rcases join_cases hrun with ⟨_, rfl, _, rfl⟩ | ⟨hlive, rfl⟩ | ⟨flow, next, others, hlive, hrun⟩
  · exact ⟨htable, .refl _, hflows made List.mem_cons_self⟩
  · have hmem : made ∈ flows.filter (isReachable forest) :=
      live_eq_filter hlive ▸ List.mem_cons_self
    exact ⟨htable, .refl _, hflows made (List.mem_of_mem_filter hmem)⟩
  · have hreached : ∀ branch ∈ flow :: next :: others,
        branch ∈ flows.filter (isReachable forest) :=
      fun branch hbranch => live_eq_filter hlive ▸ hbranch
    obtain ⟨hlater, hgrows, hgathers, _⟩ := gathers_of_joinSeveral hforest htable htyped
      (fun branch hbranch => live_of_mem_filter branch (hreached branch hbranch))
      (fun branch hbranch => (hflows branch (List.mem_of_mem_filter (hreached branch hbranch))).types)
      hrun
    exact ⟨hlater, hgrows, hgathers.live.lt_size, hgathers.types⟩

theorem Move.Known.grow (hmove : move.Known forest table) (hgrows : table.Grows later) :
    move.Known forest later := by
  cases move with
  | child => trivial
  | enter scope => exact hmove
  | refine name type => exact hgrows.known hmove
  | compact => trivial
  | join before after => exact fun flow hflow => (hmove flow hflow).grow hgrows

private theorem forall_mem_between {p : Flow → Prop} {before after : List Flow} (hflow : p flow)
    (hothers : ∀ other ∈ before ++ after, p other) : ∀ other ∈ before ++ flow :: after, p other := by
  rw [List.forall_mem_append] at hothers ⊢
  exact ⟨hothers.1, List.forall_mem_cons.mpr ⟨hflow, hothers.2⟩⟩

/-- A step that succeeds leaves a flow scope from which one can go on. -/
theorem Ready.apply (hforest : forest.Sound) (hready : flow.Ready forest table)
    (hmove : move.Known forest table)
    (hrun : (move.apply forest s flow).run.run table = (.ok made, later)) :
    table.Grows later ∧ made.Ready forest later := by
  have hknown := hready.toKnown
  cases move with
  | child =>
    obtain ⟨rfl, rfl⟩ := run_pure_eq_ok_iff.mp hrun
    exact ⟨.refl _, hknown.of_refinements rfl (refinement?_push flow s flow.scope), hready.sound,
      hready.typed⟩
  | enter scope =>
    obtain ⟨hmade, rfl⟩ := run_answer_eq_ok_iff.mp hrun
    exact ⟨.refl _, hknown.enter hforest hmove hmade, hready.sound, hready.typed⟩
  | refine name type =>
    obtain ⟨rfl, rfl⟩ := run_pure_eq_ok_iff.mp hrun
    exact ⟨.refl _, hknown.refine s name hmove, hready.sound, hready.typed⟩
  | compact =>
    obtain ⟨rfl, rfl⟩ := run_pure_eq_ok_iff.mp hrun
    exact ⟨.refl _, hknown.of_refinements (scope_compact flow s) (refinement?_compact flow s),
      hready.sound, hready.typed⟩
  | join before after =>
    obtain ⟨hlater, hgrows, hmade⟩ := Known.join hforest hready.sound hready.typed
      (forall_mem_between hknown hmove) hrun
    exact ⟨hgrows, hmade, hlater, hready.typed.grow hgrows⟩

theorem Gives.fits_of_forall {flows : List Flow} (hgives : made.Gives forest table flows)
    (hfits : ∀ flow ∈ flows, flow.Fits forest table) : made.Fits forest table := by
  by_cases hnone : flows.filter (isReachable forest) = []
  · exact hfits made (List.mem_of_mem_head? (hgives.of_nil hnone))
  · exact (hgives.of_ne_nil hnone).fits

/-- A step with spelled names succeeds. -/
theorem Fits.apply (hforest : forest.Sound) (htable : table.Sound) (htyped : forest.Typed table)
    (hfits : flow.Fits forest table) (hmove : move.Known forest table)
    (hspelled : move.Spelled forest) (s : ℕ) :
    ∃ made later, table.Settles (move.apply forest s flow) made later ∧
      made.Fits forest later := by
  cases move with
  | child =>
    exact ⟨_, table, htable.settles_pure (flow.child s),
      hfits.of_refinements rfl (refinement?_push flow s flow.scope)⟩
  | enter scope =>
    obtain ⟨made, hmade⟩ := Placed.exists_enter hforest hfits.placed hmove s
    refine ⟨made, table, ?_, (hfits.known.enter hforest hmove hmade).fits fun name hname => ?_⟩
    · rw [Move.apply, hmade]
      exact htable.settles_pure made
    · exact hfits.names name (of_mem_enter hforest hmade hname).1
  | refine name type =>
    exact ⟨_, table, htable.settles_pure _, hfits.refine s hspelled hmove⟩
  | compact =>
    exact ⟨_, table, htable.settles_pure (flow.compact s),
      hfits.of_refinements (scope_compact flow s) (refinement?_compact flow s)⟩
  | join before after =>
    have hflows : ∀ other ∈ before ++ flow :: after, other.Fits forest table :=
      forall_mem_between hfits fun other hother => (hmove other hother).fits (hspelled other hother)
    obtain ⟨made, later, hsettles, hgives⟩ := join_settles hforest htable htyped s
      (List.append_ne_nil_of_right_ne_nil before (List.cons_ne_nil flow after))
      (fun other hother => (hflows other hother).scope)
      fun other hother => hflows other (List.mem_of_mem_filter hother)
    exact ⟨made, later, hsettles,
      hgives.fits_of_forall fun other hother => (hflows other hother).grow hsettles.grows⟩

/-- A step makes twins of twins, on any two tables that grow into one. -/
theorem Twins.apply (hforest : forest.Sound) (htwins : Twins forest f g)
    (hf : f.Ready forest table) (hg : g.Ready forest table') (hmove : move.Known forest table)
    (hmove' : move.Known forest table')
    (hrun : (move.apply forest s f).run.run table = (.ok f', later))
    (hrun' : (move.apply forest s' g).run.run table' = (.ok g', later'))
    (hgrows : later.Grows last) (hgrows' : later'.Grows last) (hlast : last.Sound) :
    Twins forest f' g' := by
  cases move with
  | child =>
    obtain ⟨rfl, _⟩ := run_pure_eq_ok_iff.mp hrun
    obtain ⟨rfl, _⟩ := run_pure_eq_ok_iff.mp hrun'
    exact (twins_child f s).trans (htwins.trans (twins_child g s').symm)
  | enter scope =>
    exact htwins.enter hforest (run_answer_eq_ok_iff.mp hrun).1 (run_answer_eq_ok_iff.mp hrun').1
  | refine name type =>
    obtain ⟨rfl, _⟩ := run_pure_eq_ok_iff.mp hrun
    obtain ⟨rfl, _⟩ := run_pure_eq_ok_iff.mp hrun'
    exact htwins.refine s s' name type
  | compact =>
    obtain ⟨rfl, _⟩ := run_pure_eq_ok_iff.mp hrun
    obtain ⟨rfl, _⟩ := run_pure_eq_ok_iff.mp hrun'
    exact (twins_compact f s).trans (htwins.trans (twins_compact g s').symm)
  | join before after =>
    have hself : ∀ flows : List Flow, List.Forall₂ (Twins forest) flows flows :=
      fun flows => List.forall₂_same.mpr fun flow _ => .refl flow
    have hflows := List.rel_append (hself before) (.cons htwins (hself after))
    exact Twins.join hforest hflows hf.sound hg.sound hf.typed hg.typed
      (fun flow hflow => (forall_mem_between hf.toKnown hmove flow hflow).types)
      (fun flow hflow => (forall_mem_between hg.toKnown hmove' flow hflow).types) hrun hrun' hgrows
      hgrows' hlast

/-- Steps with spelled names succeed one after another. -/
theorem Fits.applyAll (hforest : forest.Sound) (htable : table.Sound)
    (htyped : forest.Typed table) (hfits : flow.Fits forest table)
    (hmoves : ∀ move ∈ moves, move.Known forest table)
    (hspelled : ∀ move ∈ moves, move.Spelled forest) (s : ℕ) :
    ∃ made later, table.Settles (Move.applyAll forest s flow moves) made later := by
  induction moves generalizing flow table s with
  | nil => exact ⟨flow, table, htable.settles_pure flow⟩
  | cons move moves ih =>
    obtain ⟨hmove, hmoves⟩ := List.forall_mem_cons.mp hmoves
    obtain ⟨hspelledMove, hspelled⟩ := List.forall_mem_cons.mp hspelled
    obtain ⟨next, between, hnext, hfits⟩ :=
      hfits.apply hforest htable htyped hmove hspelledMove s
    obtain ⟨made, later, hmade⟩ := ih hnext.sound (htyped.grow hnext.grows) hfits
      (fun move hmem => (hmoves move hmem).grow hnext.grows) hspelled (s + 1)
    exact ⟨made, later, hnext.bind hmade⟩

theorem Ready.applyAll (hforest : forest.Sound) (hready : flow.Ready forest table)
    (hmoves : ∀ move ∈ moves, move.Known forest table)
    (hrun : (Move.applyAll forest s flow moves).run.run table = (.ok made, later)) :
    table.Grows later ∧ made.Ready forest later := by
  induction moves generalizing flow table s with
  | nil =>
    obtain ⟨rfl, rfl⟩ := run_pure_eq_ok_iff.mp hrun
    exact ⟨.refl _, hready⟩
  | cons move moves ih =>
    obtain ⟨hmove, hmoves⟩ := List.forall_mem_cons.mp hmoves
    obtain ⟨next, between, hnext, hrest⟩ := run_bind_eq_ok_iff.mp hrun
    obtain ⟨hgrows, hready⟩ := hready.apply hforest hmove hnext
    obtain ⟨hgrows', hmade⟩ := ih hready (fun move hmem => (hmoves move hmem).grow hgrows) hrest
    exact ⟨hgrows.trans hgrows', hmade⟩

/-- The same steps make twins of twins, on any two tables that grow into one. -/
theorem Twins.applyAll (hforest : forest.Sound) (htwins : Twins forest f g)
    (hf : f.Ready forest table) (hg : g.Ready forest table')
    (hmoves : ∀ move ∈ moves, move.Known forest table)
    (hmoves' : ∀ move ∈ moves, move.Known forest table')
    (hrun : (Move.applyAll forest s f moves).run.run table = (.ok f', later))
    (hrun' : (Move.applyAll forest s' g moves).run.run table' = (.ok g', later'))
    (hgrows : later.Grows last) (hgrows' : later'.Grows last) (hlast : last.Sound) :
    Twins forest f' g' := by
  induction moves generalizing f g table table' s s' with
  | nil =>
    obtain ⟨rfl, _⟩ := run_pure_eq_ok_iff.mp hrun
    obtain ⟨rfl, _⟩ := run_pure_eq_ok_iff.mp hrun'
    exact htwins
  | cons move moves ih =>
    obtain ⟨hmove, hmoves⟩ := List.forall_mem_cons.mp hmoves
    obtain ⟨hmove', hmoves'⟩ := List.forall_mem_cons.mp hmoves'
    obtain ⟨f₁, t₁, hfirst, hrest⟩ := run_bind_eq_ok_iff.mp hrun
    obtain ⟨g₁, t₁', hfirst', hrest'⟩ := run_bind_eq_ok_iff.mp hrun'
    obtain ⟨hgrows₁, hf₁⟩ := hf.apply hforest hmove hfirst
    obtain ⟨hgrows₁', hg₁⟩ := hg.apply hforest hmove' hfirst'
    have hmoves := fun move hmem => (hmoves move hmem).grow hgrows₁
    have hmoves' := fun move hmem => (hmoves' move hmem).grow hgrows₁'
    -- Types are compared in the last table, into which those after the first step grow as well.
    have hlater := (hf₁.applyAll hforest hmoves hrest).1.trans hgrows
    have hlater' := (hg₁.applyAll hforest hmoves' hrest').1.trans hgrows'
    have htwins₁ := htwins.apply hforest hf hg hmove hmove' hfirst hfirst' hlater hlater' hlast
    exact ih htwins₁ hf₁ hg₁ hmoves hmoves' hrest hrest'

/-- Flow scopes of one scope that agree, agree after the same steps: the results have one scope and
agree either way round. The steps succeed if all names have a spelling. -/
theorem applyAll_of_agrees (hforest : forest.Built) (htable : table.Built)
    (htyped : forest.Typed table) {a b : Flow} (ha : a.Known forest table)
    (hb : b.Known forest table) (hscope : a.scope = b.scope)
    (hagrees : agrees table forest a b = .ok true)
    (hmoves : ∀ move ∈ moves, move.Known forest table) (s₁ s₂ : ℕ) :
    let runs : Attempt Fault TypeTable (Flow × Flow) := do
      let first ← Move.applyAll forest s₁ a moves
      let second ← Move.applyAll forest s₂ b moves
      return (first, second)
    ((∀ name ∈ a.slotNames ++ b.slotNames, forest.Interned name) →
      (∀ move ∈ moves, move.Spelled forest) →
        ∃ results later, runs.run.run table = (.ok results, later)) ∧
    ∀ first second later, runs.run.run table = (.ok (first, second), later) →
      first.scope = second.scope ∧
      agrees later forest first second = .ok true ∧
      agrees later forest second first = .ok true := by
  have hsound := hforest.sound
  refine ⟨fun hnames hspelled => ?_, fun first second later hrun => ?_⟩
  · obtain ⟨hnamesA, hnamesB⟩ := List.forall_mem_append.mp hnames
    obtain ⟨first, between, hfirst⟩ :=
      (ha.fits hnamesA).applyAll hsound htable.sound htyped hmoves hspelled s₁
    obtain ⟨second, later, hsecond⟩ := ((hb.fits hnamesB).grow hfirst.grows).applyAll hsound
      hfirst.sound (htyped.grow hfirst.grows)
      (fun move hmem => (hmoves move hmem).grow hfirst.grows) hspelled s₂
    exact ⟨(first, second), later,
      (hfirst.bind (hsecond.bind (hsecond.sound.settles_pure (first, second)))).run⟩
  · obtain ⟨made, between, hfirst, hrest⟩ := run_bind_eq_ok_iff.mp hrun
    obtain ⟨other, last, hsecond, hpair⟩ := run_bind_eq_ok_iff.mp hrest
    obtain ⟨hresults, rfl⟩ := run_pure_eq_ok_iff.mp hpair
    obtain ⟨rfl, rfl⟩ := Prod.mk.inj hresults
    have hreadyA : a.Ready forest table := ⟨ha, htable.sound, htyped⟩
    obtain ⟨hgrows, hmade⟩ := hreadyA.applyAll hsound hmoves hfirst
    have hreadyB : b.Ready forest between := ⟨hb.grow hgrows, hmade.sound, hmade.typed⟩
    have hmoves' := fun move hmem => (hmoves move hmem).grow hgrows
    obtain ⟨hgrows', hother⟩ := hreadyB.applyAll hsound hmoves' hsecond
    have htwins := Twins.applyAll hsound ((agrees_iff_twins hscope ha.scope).mp hagrees) hreadyA
      hreadyB hmoves hmoves' hfirst hsecond hgrows' (.refl _) hother.sound
    exact ⟨htwins.scope, htwins.agrees hmade.scope⟩

private def leaving : List Move :=
  [.compact, .enter ⟨0⟩, .join (crossingBranches.take 2) [], .child]

private theorem leaving_known : ∀ move ∈ leaving, move.Known crossing TypeTable.basic := by
  have hscope : (⟨0⟩ : ScopeId).raw < crossing.scopes.size := by decide +kernel
  have hbranches : ∀ flow ∈ crossingBranches.take 2, flow.Known crossing TypeTable.basic :=
    fun flow hflow => (crossingBranches_fit flow (crossingBranches_reachable ▸ hflow)).known
  intro move hmove
  simp only [leaving, List.mem_cons, List.not_mem_nil, or_false] at hmove
  rcases hmove with rfl | rfl | rfl | rfl
  · trivial
  · exact hscope
  · simpa only [Move.Known, List.append_nil] using hbranches
  · trivial

private theorem leaving_spelled : ∀ move ∈ leaving, move.Spelled crossing := by
  have hbranches : ∀ flow ∈ crossingBranches.take 2, ∀ name ∈ flow.slotNames,
      crossing.Interned name :=
    fun flow hflow => (crossingBranches_fit flow (crossingBranches_reachable ▸ hflow)).names
  intro move hmove
  simp only [leaving, List.mem_cons, List.not_mem_nil, or_false] at hmove
  rcases hmove with rfl | rfl | rfl | rfl
  · trivial
  · trivial
  · simpa only [Move.Spelled, List.append_nil] using hbranches
  · trivial

theorem applyAll_of_agrees_of_crossing :
    let refined := (entry 0 ⟨1⟩).refine 1 ⟨5⟩ ⟨2⟩
    let plain := entry 2 ⟨1⟩
    let runs : Attempt Fault TypeTable (Flow × Flow) := do
      let first ← Move.applyAll crossing 10 refined leaving
      let second ← Move.applyAll crossing 20 plain leaving
      return (first, second)
    refined.slotNames ≠ plain.slotNames ∧
    ∃ first second later, runs.run.run TypeTable.basic = (.ok (first, second), later) ∧
      first.scope = second.scope ∧
      agrees later crossing first second = .ok true ∧
      agrees later crossing second first = .ok true := by
  intro refined plain runs
  have hscope : (⟨1⟩ : ScopeId).raw < crossing.scopes.size := by decide +kernel
  have hplain : plain.Fits crossing TypeTable.basic := fits_entry 2 hscope
  have hrefined : refined.Fits crossing TypeTable.basic :=
    (fits_entry 0 hscope).refine 1 crossing_interned (by decide)
  obtain ⟨hsucceeds, hagree⟩ := applyAll_of_agrees crossing_built TypeTable.Built.basic
    crossing_typed hrefined.known hplain.known rfl (by decide +kernel) leaving_known 10 20
  obtain ⟨⟨first, second⟩, later, hrun⟩ :=
    hsucceeds (List.forall_mem_append.mpr ⟨hrefined.names, hplain.names⟩) leaving_spelled
  exact ⟨by decide +kernel, first, second, later, hrun, hagree first second later hrun⟩

end FlowTyping.Flow
