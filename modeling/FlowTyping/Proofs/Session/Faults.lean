import FlowTyping.Proofs.Flow.Seen
import FlowTyping.Proofs.Forest.Faults
import FlowTyping.Proofs.Session

/-!
# Faults that never come up

Some faults stand for broken invariants: flow scopes that hang from different roots, a scope without
a parent that needs one, an implicit variable that no scope makes. Whatever is asked of a session,
also where requests fail, its forest never shows any of them.
-/
namespace FlowTyping
open Attempt TypeLattice
variable {Λ : Type} [TypeLattice Λ]

namespace Flow
variable {forest : Forest}

theorem refinementsIn_raises (flow : Flow) (forest : Forest) (scope : ScopeId) :
    Except.Raises Fault.IsLookup (flow.refinementsIn forest scope) :=
  Except.raises_foldlM (fun _ name =>
    (forest.sameBinding_raises flow.scope scope name).bind fun _ _ => Except.raises_ok _) _ _

theorem joinedSlots_raises (forest : Forest) (scope : ScopeId) (branches : List Slots)
    (names : List Name) :
    Raises Fault.IsLookup (joinedSlots forest scope branches names : Attempt Fault Λ Slots) := by
  induction names with
  | nil => exact (succeeds_pure _).raises
  | cons name names ih =>
    refine (raises_answer (forest.declaredType_raises scope name)).bind fun declared => ?_
    refine (raises_failing (fun _ => trivial) (joinedType declared name branches)).bind ?_
    intro joined
    refine succeeds_get.raises.bind fun types => ih.bind fun slots => ?_
    cases joined <;> exact (succeeds_pure _).raises

/-- Flow scopes in scopes of the forest are always joined in a scope, so what can go wrong is that
a name or a type is not known. -/
theorem join_raises (hforest : forest.Sound) {flows : List Flow} (hflows : flows ≠ [])
    (hscopes : ∀ flow ∈ flows, flow.scope.raw < forest.scopes.size) (stamp : Nat) :
    Raises Fault.IsLookup (join stamp forest flows : Attempt Fault Λ Flow) := by
  have hreachable : ∀ flow ∈ flows.filter (isReachable forest), forest.Live flow.scope :=
    live_of_mem_filter
  obtain ⟨first, rest, rfl⟩ := List.exists_cons_of_ne_nil hflows
  rw [join, live_eq_ok hscopes, answer_ok, pure_bind]
  generalize (first :: rest).filter (isReachable forest) = reachable at hreachable
  cases reachable with
  | nil => exact (succeeds_pure _).raises
  | cons flow others =>
    obtain ⟨hflow, hothers⟩ := List.forall_mem_cons.mp hreachable
    obtain ⟨around, haround, _⟩ := scopeAround_spec hforest hflow hothers
    cases others with
    | nil => exact (succeeds_pure _).raises
    | cons second others =>
      dsimp only
      rw [haround, answer_ok, pure_bind]
      refine Raises.bind (raises_answer (Except.raises_mapM (fun branch => ?_) _)) fun slots => ?_
      · exact refinementsIn_raises branch forest around
      · exact (joinedSlots_raises forest around slots _).bind fun _ => (succeeds_pure _).raises

end Flow

namespace Forest

/-- What a forest never shows, whatever is asked of it. -/
structure Assured (forest : Forest) : Prop where
  related : ∀ {a b}, forest.Live a → forest.Live b →
    ∃ around, forest.commonAncestor a b = .ok (some around)
  joined : ∀ {Λ : Type} [TypeLattice Λ] (types later : Λ) (stamp : Nat) {flows : List Flow}
    {fault : Fault}, (∀ flow ∈ flows, flow.scope.raw < forest.scopes.size) →
    (Flow.join stamp forest flows).run.run types = (.error fault, later) →
    ∀ a b, fault ≠ .unrelatedScopes a b
  parented : ∀ {Λ : Type} [TypeLattice Λ] (types : Λ) {a : ScopeId} (var : Implicit)
    (kind : Scope.Kind) (id : ScopeId), a.raw < forest.scopes.size →
    forest.thisType types a ≠ .error (.orphan kind id) ∧
      forest.resolveImplicit types a var ≠ .error (.orphan kind id)
  synthesized : ∀ {Λ : Type} [TypeLattice Λ] (types : Λ) (a : ScopeId) (var : Implicit),
    forest.makeImplicit types a var ≠ .error .synthesizedExports ∧
      forest.resolveImplicit types a var ≠ .error .synthesizedExports
  this : ∀ {Λ : Type} [TypeLattice Λ] (types : Λ) {a : ScopeId} {fault : Fault},
    a.raw < forest.scopes.size → forest.thisType types a = .error fault →
      forest.ThisFault types a fault

theorem Sound.assured {forest : Forest} (hsound : forest.Sound) : forest.Assured where
  related ha hb := by
    obtain ⟨around, haround, _⟩ := hsound.commonAncestor_spec ha hb
    exact ⟨around, haround⟩
  joined types later stamp flows fault hscopes hrun a b := by
    rintro rfl
    cases flows with
    | nil => cases hrun
    | cons flow flows =>
      exact Flow.join_raises hsound (List.cons_ne_nil flow flows) hscopes stamp types _ later hrun
  parented types a var kind id ha := by
    constructor
    · intro hfault
      exact (hsound.thisType_raises types ha _ hfault).ne_orphan kind id rfl
    · intro hfault
      exact (hsound.resolveImplicit_raises types ha var _ hfault).ne_orphan kind id rfl
  synthesized types a var := by
    by_cases ha : a.raw < forest.scopes.size
    · constructor
      · intro hfault
        exact (hsound.makeImplicit_raises types ha var _ hfault).ne_synthesizedExports rfl
      · intro hfault
        exact (hsound.resolveImplicit_raises types ha var _ hfault).ne_synthesizedExports rfl
    · obtain ⟨hmake, hresolve⟩ := unknown_implicit ha types var
      rw [hmake, hresolve]
      simp
  this types a fault ha hfault := hsound.thisType_raises types ha fault hfault

end Forest

/-- Whatever was asked of a session, the faults that stand for broken invariants do not come up. -/
theorem Session.after_assured (root : NodeId) (types : Prescribed TypeTable)
    (requests : List Request) : ((start root types).after requests).forest.Assured :=
  (built_after root types requests).sound.assured

end FlowTyping
