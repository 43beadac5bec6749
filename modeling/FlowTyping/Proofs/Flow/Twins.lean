import FlowTyping.Flow.Compaction
import FlowTyping.Proofs.Flow.Order
import FlowTyping.Proofs.Flow.ScopeChange

/-!
# Operations on twins

A flow scope may refine a name to its declared type, or not at all, and changes of scope and joins
look at what is refined. But what they keep of such a refinement is the declared type again. So
every operation makes twins of twins.
-/
namespace FlowTyping.Flow
open TypeLattice Attempt
variable {forest : Forest} {table table' later later' last : TypeTable} {scope target : ScopeId}
  {f g f' g' : Flow} {name : Name} {s s' : ℕ}

theorem twins_child (f : Flow) (s : ℕ) : Twins forest (f.child s) f :=
  twins_of_refinements rfl fun name => refinement?_push f s f.scope name

theorem twins_compact (f : Flow) (s : ℕ) : Twins forest (f.compact s) f :=
  twins_of_refinements (scope_compact f s) (refinement?_compact f s)

theorem Twins.refine (htwins : Twins forest f g) (s s' : ℕ) (name : Name) (type : TypeId) :
    Twins forest (f.refine s name type) (g.refine s' name type) := by
  refine ⟨htwins.scope, fun other => ?_⟩
  have hslots := htwins.slots other
  rw [slotType, slotType] at hslots ⊢
  rw [refinement?_refine, refinement?_refine]
  by_cases hsame : name = other
  · simp only [if_pos hsame]
  · simp only [if_neg hsame]
    exact hslots

private theorem Twins.slotType_of_kept (hforest : forest.Sound) (htwins : Twins forest f g)
    (hf : f.enter s forest target = .ok f') (hg : g.enter s' forest target = .ok g')
    {type : TypeId} (hkept : f'.refinement? name = some type) :
    f'.slotType forest name = g'.slotType forest name := by
  obtain ⟨hscope, hrefinement⟩ := refinement?_of_enter hforest hf name
  obtain ⟨hscope', hrefinement'⟩ := refinement?_of_enter hforest hg name
  obtain ⟨_, hresolve⟩ := of_enter hforest hf hkept
  have hsame : forest.meaning? f.scope name = forest.meaning? target name := by
    rw [Forest.meaning?, Forest.meaning?, hresolve, hscope]
  rw [if_pos hsame, hkept] at hrefinement
  rw [if_pos (htwins.scope ▸ hsame)] at hrefinement'
  rw [slotType_of_refined hkept, ← slotType_of_refined hrefinement.symm, htwins.slots]
  cases hrefined : g.refinement? name with
  | some type' =>
    rw [slotType_of_refined hrefined, slotType_of_refined (hrefinement'.trans hrefined)]
  | none =>
    -- Here the type is declared, and the name means the same variable in both scopes.
    rw [slotType_of_unrefined hrefined, slotType_of_unrefined (hrefinement'.trans hrefined),
      Forest.declaredType, Forest.declaredType, ← htwins.scope, hresolve, hscope, hscope']

theorem Twins.enter (hforest : forest.Sound) (htwins : Twins forest f g)
    (hf : f.enter s forest target = .ok f') (hg : g.enter s' forest target = .ok g') :
    Twins forest f' g' := by
  have hscope := scope_of_enter hf
  have hscope' := scope_of_enter hg
  refine ⟨hscope.trans hscope'.symm, fun name => ?_⟩
  cases hkept : f'.refinement? name with
  | some type => exact htwins.slotType_of_kept hforest hf hg hkept
  | none =>
    cases hkept' : g'.refinement? name with
    | some type => exact (htwins.symm.slotType_of_kept hforest hg hf hkept').symm
    | none => rw [slotType_of_unrefined hkept, slotType_of_unrefined hkept', hscope, hscope']

theorem Twins.isReachable_eq (htwins : Twins forest f g) :
    f.isReachable forest = g.isReachable forest := by
  rw [isReachable, isReachable, isBottom, isBottom, htwins.scope]

theorem Twins.seen (htwins : Twins forest f g) (scope : ScopeId) (name : Name) :
    f.seen? forest scope name = g.seen? forest scope name := by
  rw [seen?, seen?, htwins.scope, htwins.effective]

section Lists
variable {flows flows' : List Flow}

theorem filter_twins (htwins : List.Forall₂ (Twins forest) flows flows') :
    List.Forall₂ (Twins forest) (flows.filter (isReachable forest))
      (flows'.filter (isReachable forest)) :=
  List.rel_filter (fun _ _ h => Bool.eq_iff_iff.mp h.isReachable_eq) htwins

theorem map_eq_of_twins {α : Type} {view : Flow → α}
    (hview : ∀ {f g}, Twins forest f g → view f = view g)
    (htwins : List.Forall₂ (Twins forest) flows flows') : flows.map view = flows'.map view := by
  rw [← List.forall₂_eq_eq_eq]
  exact List.rel_map (fun _ _ h => hview h) htwins

end Lists

/-- What gathers twins is twins, if it can be told what the names mean that were seen. -/
theorem Gathers.twins (hforest : forest.Sound) (htable : table.Sound) {flows flows' : List Flow}
    (htwins : List.Forall₂ (Twins forest) flows flows') (hf : f.Gathers forest table flows)
    (hg : g.Gathers forest table flows')
    (htells : ∀ branch ∈ flows, ∀ name ∈ branch.visible forest f.scope, forest.Tells f.scope name)
    (htells' : ∀ branch ∈ flows', ∀ name ∈ branch.visible forest g.scope,
      forest.Tells g.scope name) : Twins forest f g := by
  have hscopes : flows.map Flow.scope = flows'.map Flow.scope :=
    map_eq_of_twins (fun h => h.scope) htwins
  have hseen : ∀ scope name,
      flows.map (seen? forest scope name) = flows'.map (seen? forest scope name) :=
    fun scope name => map_eq_of_twins (fun h => h.seen scope name) htwins
  obtain ⟨hscope, heffective⟩ := hf.eq_of_seen hforest htable (fun _ => by rw [hscopes])
    (fun _ _ _ => by rw [hseen]) hg
  refine twins_of_tells hscope (fun name hname => ?_) heffective
  rcases hname with hname | hname
  · obtain ⟨branch, hbranch, hvisible⟩ := hf.refined name hname
    exact htells branch hbranch name hvisible
  · obtain ⟨branch, hbranch, hvisible⟩ := hg.refined name hname
    exact hscope ▸ htells' branch hbranch name hvisible

/-- Joins of twins are twins, whatever the lattice has learnt between them. -/
theorem Twins.join (hforest : forest.Sound) {flows flows' : List Flow}
    (htwins : List.Forall₂ (Twins forest) flows flows') (htable : table.Sound)
    (htable' : table'.Sound) (htyped : forest.Typed table) (htyped' : forest.Typed table')
    (htypes : ∀ flow ∈ flows, ∀ name, table.Holds (flow.refinement? name))
    (htypes' : ∀ flow ∈ flows', ∀ name, table'.Holds (flow.refinement? name))
    (hf : (join s forest flows).run.run table = (.ok f, later))
    (hg : (join s' forest flows').run.run table' = (.ok g, later'))
    (hgrows : later.Grows last) (hgrows' : later'.Grows last) (hlast : last.Sound) :
    Twins forest f g := by
  have hlive : ∀ flow ∈ flows.filter (isReachable forest), forest.Live flow.scope :=
    live_of_mem_filter
  have hlive' : ∀ flow ∈ flows'.filter (isReachable forest), forest.Live flow.scope :=
    live_of_mem_filter
  have htypes : ∀ flow ∈ flows.filter (isReachable forest), ∀ name,
      table.Holds (flow.refinement? name) :=
    fun flow hflow => htypes flow (List.mem_of_mem_filter hflow)
  have htypes' : ∀ flow ∈ flows'.filter (isReachable forest), ∀ name,
      table'.Holds (flow.refinement? name) :=
    fun flow hflow => htypes' flow (List.mem_of_mem_filter hflow)
  have hf := join_by_reachable hf
  have hg := join_by_reachable hg
  have hreachable := filter_twins htwins
  generalize flows.filter (isReachable forest) = reachable at *
  generalize flows'.filter (isReachable forest) = reachable' at *
  cases hreachable with
  | nil =>
    cases htwins with
    | nil => cases hf
    | cons hfirst _ =>
      cases hf
      cases hg
      exact hfirst
  | cons hfirst hothers =>
    cases hothers with
    | nil => exact hf ▸ hg ▸ hfirst
    | cons hnext hothers =>
      obtain ⟨_, _, hgathers, htells, _⟩ :=
        gathers_of_joinSeveral hforest htable htyped hlive htypes hf
      obtain ⟨_, _, hgathers', htells', _⟩ :=
        gathers_of_joinSeveral hforest htable' htyped' hlive' htypes' hg
      exact (hgathers.grow hgrows).twins hforest hlast (.cons hfirst (.cons hnext hothers))
        (hgathers'.grow hgrows') htells htells'

end FlowTyping.Flow
