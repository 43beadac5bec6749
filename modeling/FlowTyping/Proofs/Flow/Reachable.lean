import FlowTyping.Flow.ScopeChange
import FlowTyping.Proofs.Flow.Branches
import FlowTyping.Proofs.Flow.Run

/-!
# Stores that runs leave

A run takes steps, keeps the parents of flow scopes and drops keys, in any order; each step has a
forest and a lattice of its own. Whatever a step does, the flow scope that it makes is one that was
kept before, one with a layer put on it or refined or made short, an entry, or one layer over an
entry. So what these keep holds of all flow scopes of a run.
-/
namespace FlowTyping
open Attempt

namespace Flow
variable {forest : Forest} {flow made : Flow} {stamp : Nat} {scope : ScopeId}

/-- A chain is continued in another scope as it is, or what is left of it is put on a new entry. -/
theorem enter_cases (hmade : flow.enter stamp forest scope = .ok made) :
    made = flow.push stamp scope ∧
        (scope = flow.scope ∨ flow.refinementsIn forest scope = .ok flow.refinements) ∨
      scope ≠ flow.scope ∧ ∃ kept, flow.refinementsIn forest scope = .ok kept ∧
        kept.size ≠ flow.refinements.size ∧ made = overEntry stamp scope kept := by
  unfold enter at hmade
  by_cases hsame : scope = flow.scope
  · rw [if_pos hsame] at hmade
    exact .inl ⟨(Except.ok.inj hmade).symm, .inl hsame⟩
  · rw [if_neg hsame] at hmade
    obtain ⟨kept, hkept, hmade⟩ := Except.bind_eq_ok_iff.mp hmade
    by_cases hsize : kept.size = flow.refinements.size
    · rw [if_pos hsize] at hmade
      refine .inl ⟨(Except.ok.inj hmade).symm, .inr ?_⟩
      exact Slots.eq_of_retain_of_size hkept hsize ▸ hkept
    · rw [if_neg hsize] at hmade
      exact .inr ⟨hsame, kept, hkept, hsize, (Except.ok.inj hmade).symm⟩

/-- A join is one of its branches, or one layer over an entry. -/
theorem mem_or_overEntry_of_join {Λ : Type} [TypeLattice Λ] {types later : Λ} {flows : List Flow}
    (hrun : (join stamp forest flows).run.run types = (.ok made, later)) :
    made ∈ flows ∨ ∃ scope slots, made = overEntry stamp scope slots := by
  rcases join_cases hrun with ⟨others, rfl, _⟩ | ⟨hlive, _⟩ | ⟨flow, next, others, _, hrun⟩
  · exact .inl List.mem_cons_self
  · have hmem : made ∈ flows.filter (isReachable forest) := by
      rw [← live_eq_filter hlive]
      exact List.mem_singleton_self made
    exact .inl (List.mem_filter.mp hmem).1
  · obtain ⟨scope, _, _, hrun⟩ := run_bind_eq_ok_iff.mp hrun
    obtain ⟨branches, _, _, hrun⟩ := run_bind_eq_ok_iff.mp hrun
    obtain ⟨slots, _, _, hrun⟩ := run_bind_eq_ok_iff.mp hrun
    exact .inr ⟨scope, slots, (run_pure_eq_ok_iff.mp hrun).1.symm⟩

end Flow

namespace FlowStore

/-- What a step can make of the flow scopes in a store. -/
inductive Makes (store : FlowStore) : Flow → Prop where
  | kept {key : String} {flow : Flow} (hflow : store.flows[key]? = some flow) : Makes store flow
  | entry (scope : ScopeId) : Makes store (.entry store.nextStamp scope)
  | overEntry (scope : ScopeId) (slots : Slots) :
    Makes store (.overEntry store.nextStamp scope slots)
  | push {key : String} {flow : Flow} (hflow : store.flows[key]? = some flow) (scope : ScopeId) :
    Makes store (flow.push store.nextStamp scope)
  | refine {key : String} {flow : Flow} (hflow : store.flows[key]? = some flow) (name : Name)
    (type : TypeId) : Makes store (flow.refine store.nextStamp name type)
  | compact {key : String} {flow : Flow} (hflow : store.flows[key]? = some flow) :
    Makes store (flow.compact store.nextStamp)

/-- The stores that runs leave, from one that keeps nothing. -/
inductive Reachable : FlowStore → Prop where
  | empty : Reachable .empty
  | step {Λ : Type} [TypeLattice Λ] {store later : FlowStore} {made : Flow} {types changed : Λ}
    (forest : Forest) (step : FlowStep) (hreached : Reachable store)
    (hstep : (store.perform forest step).run.run types = (.ok (made, later), changed)) :
    Reachable later
  | parent {store later : FlowStore} {found : Option Flow} (key target : String)
    (hreached : Reachable store)
    (hparent : (keepingParent key target).run.run store = (.ok found, later)) :
    Reachable later
  | drop {store : FlowStore} (key : String) (hreached : Reachable store) :
    Reachable (store.drop key).2

section
variable {Λ : Type} [TypeLattice Λ] {store later : FlowStore} {forest : Forest} {step : FlowStep}
  {types changed : Λ} {flow made : Flow} {key target : String}

theorem makes_of_result
    (hrun : (store.result forest step).run.run types = (.ok made, changed)) : store.Makes made := by
  cases step with
  | entry scope target =>
    rw [← (run_pure_eq_ok_iff.mp hrun).1]
    exact .entry scope
  | child key target =>
    obtain ⟨flow, hflow, hmade⟩ := Except.bind_eq_ok_iff.mp (run_answer_eq_ok_iff.mp hrun).1
    rw [← Except.ok.inj hmade]
    exact .push (find_eq_ok_iff.mp hflow) flow.scope
  | enter key scope target =>
    obtain ⟨flow, hflow, hmade⟩ := Except.bind_eq_ok_iff.mp (run_answer_eq_ok_iff.mp hrun).1
    rcases Flow.enter_cases hmade with ⟨rfl, _⟩ | ⟨_, slots, _, _, rfl⟩
    · exact .push (find_eq_ok_iff.mp hflow) scope
    · exact .overEntry scope slots
  | copy key target => exact .kept (find_eq_ok_iff.mp (run_answer_eq_ok_iff.mp hrun).1)
  | compact key target =>
    obtain ⟨flow, hflow, hmade⟩ := Except.bind_eq_ok_iff.mp (run_answer_eq_ok_iff.mp hrun).1
    rw [← Except.ok.inj hmade]
    exact .compact (find_eq_ok_iff.mp hflow)
  | refine key name type =>
    obtain ⟨flow, hflow, hmade⟩ := Except.bind_eq_ok_iff.mp (run_answer_eq_ok_iff.mp hrun).1
    rw [← Except.ok.inj hmade]
    exact .refine (find_eq_ok_iff.mp hflow) name type
  | join keys target =>
    obtain ⟨flows, _, hflows, hrun⟩ := run_bind_eq_ok_iff.mp hrun
    rcases Flow.mem_or_overEntry_of_join hrun with hmem | ⟨scope, slots, rfl⟩
    · obtain ⟨key, _, hflow⟩ :=
        (Except.mem_of_mapM (run_answer_eq_ok_iff.mp hflows).1 made).mp hmem
      exact .kept (find_eq_ok_iff.mp hflow)
    · exact .overEntry scope slots

theorem getElem?_put {other : Flow} (hother : (store.put target flow).flows[key]? = some other) :
    other = flow ∨ store.flows[key]? = some other := by
  rw [put, Std.ExtTreeMap.getElem?_insert] at hother
  split at hother
  next => exact .inl (Option.some.inj hother).symm
  next => exact .inr hother

/-- What a step makes is kept beside what was kept before. -/
theorem cases_of_perform
    (hrun : (store.perform forest step).run.run types = (.ok (made, later), changed)) :
    store.Makes made ∧ later = store.put step.target made := by
  obtain ⟨flow, _, hresult, hput⟩ := run_bind_eq_ok_iff.mp hrun
  obtain ⟨rfl, rfl⟩ := Prod.mk.inj (run_pure_eq_ok_iff.mp hput).1
  exact ⟨makes_of_result hresult, rfl⟩

theorem cases_of_keepingParent {found : Option Flow}
    (hparent : (keepingParent key target).run.run store = (.ok found, later)) :
    later = store ∨ ∃ flow parent, store.flows[key]? = some flow ∧ flow.parent? = some parent ∧
      later = store.put target parent := by
  obtain ⟨flow, between, hread, hparent⟩ := run_bind_eq_ok_iff.mp hparent
  obtain ⟨hflow, rfl⟩ : store.find key = .ok flow ∧ store = between := Prod.mk.inj hread
  cases hfound : flow.parent? with
  | none =>
    rw [hfound] at hparent
    cases hparent
    exact .inl rfl
  | some parent =>
    rw [hfound] at hparent
    cases hparent
    exact .inr ⟨flow, parent, find_eq_ok_iff.mp hflow, hfound, rfl⟩

/-- What holds of all that a step makes, and of parents, holds of every flow scope of a run. -/
theorem Reachable.forall_flows {holds : Flow → Prop}
    (hmakes : ∀ (store : FlowStore) (made : Flow),
      (∀ (key : String) flow, store.flows[key]? = some flow → holds flow) → store.Makes made →
        holds made)
    (hparent : ∀ flow parent, holds flow → flow.parent? = some parent → holds parent)
    (hreached : store.Reachable) :
    ∀ (key : String) flow, store.flows[key]? = some flow → holds flow := by
  induction hreached with
  | empty =>
    intro key flow hflow
    simp [FlowStore.empty] at hflow
  | step forest step _ hstep ih =>
    obtain ⟨hmade, rfl⟩ := cases_of_perform hstep
    intro key flow hflow
    rcases getElem?_put hflow with rfl | hflow
    · exact hmakes _ flow ih hmade
    · exact ih key flow hflow
  | parent key target _ hput ih =>
    rcases cases_of_keepingParent hput with rfl | ⟨flow, parent, hflow, hfound, rfl⟩
    · exact ih
    · intro key other hother
      rcases getElem?_put hother with rfl | hother
      · exact hparent flow other (ih _ flow hflow) hfound
      · exact ih key other hother
  | drop dropped _ ih =>
    intro key flow hflow
    simp only [FlowStore.drop, Std.ExtTreeMap.getElem?_erase] at hflow
    split at hflow
    next => cases hflow
    next => exact ih key flow hflow

/-- A list of steps in one forest is a run. -/
theorem reachable_after (forest : Forest) (types : Λ) (steps : List FlowStep) :
    (after forest (.empty, types) steps).1.Reachable := by
  refine trySteps_invariant (fun store step types next later hreached hrun => ?_) steps _ .empty
  obtain ⟨made, hperform, rfl⟩ := run_map_eq_ok_iff.mp hrun
  exact .step forest step hreached hperform

end
end FlowStore
end FlowTyping
