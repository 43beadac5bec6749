import FlowTyping.Proofs.Flow.Agreement
import FlowTyping.Proofs.Flow.Flat
import FlowTyping.Proofs.Flow.Reachable
import FlowTyping.TypeLattice.Structural

/-!
# Short forms

In a run every layer counts the layers below it rightly, so a chain with a depth of one at most is a
short one. The short form of a chain is its entry if nothing is refined above it and the entry is in
the scope of the chain, or else one layer over the entry. It reads as the chain does, and making it
short again gives the very same layer.
-/
namespace FlowTyping
namespace Flow
open TypeLattice
variable {flow : Flow} {scope : ScopeId} {layers above below : List Layer}

/-- The flow scope that is reached by following the link to the parent a number of times. -/
def ancestor? (flow : Flow) : Nat → Option Flow
  | 0 => some flow
  | links + 1 => flow.parent?.bind (·.ancestor? links)

def CountsDown : List Layer → Prop
  | [] => True
  | layer :: below => layer.depth = below.length ∧ CountsDown below

def Counted (flow : Flow) : Prop := CountsDown flow.layers

/-- Nothing is refined above the entry of a chain, and the entry is in the scope of the chain. -/
def Bare (flow : Flow) : Prop :=
  (∀ layer ∈ flow.layers.dropLast, layer.slots = ∅) ∧ flow.base.scope = flow.scope

/-- A chain over the same entry with one layer at most, which says what another chain says. -/
structure ShortFormOf (short flow : Flow) : Prop where
  depth_le_one : short.depth ≤ 1
  depth_le : short.depth ≤ flow.depth
  depth_eq_zero_iff : short.depth = 0 ↔ flow.Bare
  base : short.base = flow.base
  scope : short.scope = flow.scope
  slotNames : short.slotNames = flow.slotNames
  refinement : ∀ name, short.refinement? name = flow.refinement? name
  slotType : ∀ forest name, short.slotType forest name = flow.slotType forest name
  implicitSlotType : ∀ {Λ : Type} [TypeLattice Λ] (types : Λ) forest var,
    short.implicitSlotType forest types var = flow.implicitSlotType forest types var
  agrees : ∀ {Λ : Type} [TypeLattice Λ] (types : Λ) (forest : Forest),
    (∀ type, sameType types type type = true) →
      short = flow ∨ flow.scope.raw < forest.scopes.size →
        agrees types forest short flow = .ok true ∧ agrees types forest flow short = .ok true

/-! ## Counted chains -/

theorem CountsDown.of_append (hcounts : CountsDown (above ++ below)) : CountsDown below := by
  induction above with
  | nil => exact hcounts
  | cons layer above ih => exact ih hcounts.2

theorem counted_entry (stamp : Nat) (scope : ScopeId) : (entry stamp scope).Counted :=
  ⟨rfl, trivial⟩

theorem counted_overEntry (stamp : Nat) (scope : ScopeId) (slots : Slots) :
    (overEntry stamp scope slots).Counted :=
  ⟨rfl, counted_entry stamp scope⟩

theorem Counted.push (hcounted : flow.Counted) (stamp : Nat) (scope : ScopeId) :
    (flow.push stamp scope).Counted :=
  ⟨congrArg (· + 1) hcounted.1, hcounted⟩

theorem Counted.refine (hcounted : flow.Counted) (stamp : Nat) (name : Name) (type : TypeId) :
    (flow.refine stamp name type).Counted :=
  hcounted

theorem Counted.parent {parent : Flow} (hcounted : flow.Counted)
    (hparent : flow.parent? = some parent) : parent.Counted := by
  obtain ⟨top, below⟩ := flow
  cases below with
  | nil => cases hparent
  | cons layer layers =>
    obtain rfl := Option.some.inj hparent
    exact hcounted.2

theorem Counted.base (hcounted : flow.Counted) : flow.base.Counted := by
  rw [Counted, ← dropLast_append_base] at hcounted
  exact hcounted.of_append

theorem Counted.depth_base (hcounted : flow.Counted) : flow.base.depth = 0 := hcounted.base.1

/-- The depth of a counted chain is the number of links that lead to its entry. -/
theorem Counted.ancestor?_depth (hcounted : flow.Counted) :
    flow.ancestor? flow.depth = some flow.base := by
  obtain ⟨top, below⟩ := flow
  induction below generalizing top with
  | nil =>
    have hdepth : (Flow.mk top []).depth = 0 := hcounted.1
    rw [hdepth]
    rfl
  | cons layer layers ih =>
    have hdepth : (Flow.mk top (layer :: layers)).depth = (Flow.mk layer layers).depth + 1 :=
      hcounted.1.trans (congrArg (· + 1) hcounted.2.1.symm)
    have hbase : (Flow.mk top (layer :: layers)).base = (Flow.mk layer layers).base := by
      rw [Flow.base, Flow.base, List.getLastD_cons]
    rw [hdepth, hbase]
    exact ih layer hcounted.2

/-! ## What compaction makes -/

theorem overlay_eq_empty_iff : overlay ∅ layers = ∅ ↔ ∀ layer ∈ layers, layer.slots = ∅ := by
  constructor
  · intro hempty layer hlayer
    apply Std.ExtTreeMap.ext_getElem?
    intro name
    have hnone : (overlay ∅ layers)[name]? = none := by
      rw [hempty, Std.ExtTreeMap.getElem?_empty]
    rw [getElem?_overlay, Std.ExtTreeMap.getElem?_empty, Option.none_or,
      List.findSome?_eq_none_iff] at hnone
    rw [hnone layer hlayer, Std.ExtTreeMap.getElem?_empty]
  · intro hall
    apply Std.ExtTreeMap.ext_getElem?
    intro name
    rw [getElem?_overlay, Std.ExtTreeMap.getElem?_empty, Option.none_or,
      List.findSome?_eq_none_iff]
    intro layer hlayer
    rw [hall layer hlayer, Std.ExtTreeMap.getElem?_empty]

private theorem isEmpty_and_iff {slots : Slots} {other : ScopeId} :
    (slots.isEmpty && decide (other = scope)) = true ↔ slots = ∅ ∧ other = scope := by
  rw [Bool.and_eq_true_iff, Std.ExtTreeMap.isEmpty_iff, decide_eq_true_iff]

theorem bare_iff : flow.Bare ↔
    ((overlay ∅ flow.layers.dropLast).isEmpty && decide (flow.base.scope = flow.scope)) = true := by
  rw [isEmpty_and_iff, overlay_eq_empty_iff, Bare]

/-- A bare chain becomes its entry. Any other is short already, or becomes one layer. -/
theorem Counted.compact_cases (hcounted : flow.Counted) (stamp : Nat) :
    flow.Bare ∧ flow.compact stamp = flow.base ∨
      ¬flow.Bare ∧ flow.depth = 1 ∧ flow.compact stamp = flow ∨
      ¬flow.Bare ∧ 1 < flow.depth ∧ flow.compact stamp =
        ⟨⟨stamp, flow.scope, overlay ∅ flow.layers.dropLast, 1⟩, flow.base.layers⟩ := by
  obtain ⟨top, below⟩ := flow
  have hdepth : (Flow.mk top below).depth = below.length := hcounted.1
  match below with
  | [] =>
    refine .inl ⟨⟨by simp [layers], rfl⟩, ?_⟩
    rw [compact, if_pos (by simp [hdepth])]
    rfl
  | [entry] =>
    have hbare : (Flow.mk top [entry]).Bare ↔ top.slots = ∅ ∧ entry.scope = top.scope := by
      simp [Bare, layers, Flow.base, Flow.scope]
    have hcompact : (Flow.mk top [entry]).compact stamp =
        if top.slots.isEmpty && decide (entry.scope = top.scope) then ⟨entry, []⟩
        else ⟨top, [entry]⟩ := by
      rw [compact, if_pos (by simp [hdepth])]
      rfl
    rw [hbare, ← isEmpty_and_iff, hcompact]
    split
    next hdrop => exact .inl ⟨hdrop, rfl⟩
    next hkeep => exact .inr (.inl ⟨hkeep, hdepth, rfl⟩)
  | first :: second :: others =>
    have hlong : 1 < (Flow.mk top (first :: second :: others)).depth := by simp [hdepth]
    rw [compact, if_neg (Nat.not_le.mpr hlong), bare_iff]
    dsimp only
    split
    next hdrop => exact .inl ⟨hdrop, rfl⟩
    next hkeep => exact .inr (.inr ⟨hkeep, hlong, rfl⟩)

theorem Counted.compact (hcounted : flow.Counted) (stamp : Nat) :
    (flow.compact stamp).Counted := by
  rcases hcounted.compact_cases stamp with ⟨_, hmade⟩ | ⟨_, _, hmade⟩ | ⟨_, _, hmade⟩
  · rw [hmade]
    exact hcounted.base
  · rw [hmade]
    exact hcounted
  · rw [hmade]
    exact ⟨rfl, hcounted.base⟩

/-- Compaction depends on what is above the entry, and in the short form that is the same. -/
theorem Counted.compact_compact (hcounted : flow.Counted) (stamp later : Nat) :
    (flow.compact stamp).compact later = flow.compact stamp := by
  rcases hcounted.compact_cases stamp with ⟨_, hmade⟩ | ⟨_, hshort, hmade⟩ | ⟨hbare, _, hmade⟩
  · rw [hmade]
    exact if_pos (hcounted.depth_base.trans_le (Nat.zero_le 1))
  · have hagain : flow.compact later = flow.compact stamp := by
      rw [Flow.compact, Flow.compact, if_pos hshort.le, if_pos hshort.le]
    rw [hmade, hagain, hmade]
  · rw [hmade]
    exact (if_pos (Nat.le_refl 1)).trans (if_neg (mt bare_iff.mpr hbare))

theorem Counted.compact_shortForm (hcounted : flow.Counted) (stamp : Nat) :
    (flow.compact stamp).ShortFormOf flow := by
  have hscope := scope_compact flow stamp
  have hrefinement := refinement?_compact flow stamp
  have hplace : (flow.compact stamp).depth ≤ 1 ∧ (flow.compact stamp).depth ≤ flow.depth ∧
      ((flow.compact stamp).depth = 0 ↔ flow.Bare) ∧ (flow.compact stamp).base = flow.base := by
    rcases hcounted.compact_cases stamp with ⟨hbare, hmade⟩ | ⟨hbare, hshort, hmade⟩ |
      ⟨hbare, hlong, hmade⟩
    · rw [hmade, hcounted.depth_base]
      exact ⟨Nat.zero_le _, Nat.zero_le _, iff_of_true rfl hbare, rfl⟩
    · rw [hmade, hshort]
      exact ⟨Nat.le_refl _, Nat.le_refl _, iff_of_false Nat.one_ne_zero hbare, rfl⟩
    · rw [hmade]
      exact ⟨Nat.le_refl _, hlong.le, iff_of_false Nat.one_ne_zero hbare, rfl⟩
  obtain ⟨hone, hle, hzero, hbase⟩ := hplace
  refine ⟨hone, hle, hzero, hbase, hscope, congrArg Flat.slotNames (flat_compact flow stamp),
    hrefinement, fun _ => (twins_of_refinements hscope hrefinement).slots,
    fun types forest var => ?_, fun types forest hself hknown => ?_⟩
  · rw [Flow.implicitSlotType, Flow.implicitSlotType, hrefinement, hscope]
  · rcases hknown with hsame | hsize
    · rw [hsame]
      exact ⟨agrees_self types forest flow, agrees_self types forest flow⟩
    · exact ⟨agrees_of_refinement hself hscope (hscope ▸ hsize) hrefinement,
        agrees_of_refinement hself hscope.symm hsize fun name => (hrefinement name).symm⟩

end Flow

/-! ## Runs -/

theorem FlowStore.Makes.counted {store : FlowStore} {made : Flow}
    (hcounted : ∀ (key : String) flow, store.flows[key]? = some flow → flow.Counted)
    (hmade : store.Makes made) : made.Counted := by
  cases hmade with
  | kept hflow => exact hcounted _ _ hflow
  | entry scope => exact Flow.counted_entry _ scope
  | overEntry scope slots => exact Flow.counted_overEntry _ scope slots
  | push hflow scope => exact (hcounted _ _ hflow).push _ scope
  | refine hflow name type => exact (hcounted _ _ hflow).refine _ name type
  | compact hflow => exact (hcounted _ _ hflow).compact _

theorem FlowStore.Reachable.counted {store : FlowStore} (hreached : store.Reachable) {key : String}
    {flow : Flow} (hflow : store.flows[key]? = some flow) : flow.Counted :=
  hreached.forall_flows (fun _ _ hcounted hmade => hmade.counted hcounted)
    (fun _ _ hcounted hparent => hcounted.parent hparent) key flow hflow

/-- However a flow scope was made, its depth is the number of links to its entry, and it has a short
form, which is its own short form. -/
theorem FlowStore.Reachable.compact_isShortForm {store : FlowStore} (hreached : store.Reachable)
    {key : String} {flow : Flow} (hflow : store.flows[key]? = some flow) (stamp : Nat) :
    flow.ancestor? flow.depth = some flow.base ∧ flow.base.parent? = none ∧
      (flow.compact stamp).ShortFormOf flow ∧
      ∀ later, (flow.compact stamp).compact later = flow.compact stamp := by
  have hcounted := hreached.counted hflow
  exact ⟨hcounted.ancestor?_depth, rfl, hcounted.compact_shortForm stamp,
    hcounted.compact_compact stamp⟩

private def enclosed : Forest :=
  (Forest.ofRoot .initial ⟨0⟩).after [.intern (.spelled "x"), .addScope ⟨0⟩ ⟨1⟩ .block [] none]

/-- The variable is refined in the entry itself, and the chain goes on into the block. -/
private def entering : List FlowStep :=
  [.entry ⟨0⟩ "outer", .refine "outer" ⟨5⟩ ⟨0⟩, .child "outer" "outer", .enter "outer" ⟨1⟩ "inner",
    .child "inner" "inner"]

theorem compact_isShortForm_of_entering :
    ∃ flow, (FlowStore.after enclosed (.empty, TypeTable.basic) entering).1.flows["inner"]? =
        some flow ∧
      flow.ancestor? 3 = some flow.base ∧ (flow.compact 9).ShortFormOf flow ∧
      (flow.compact 9).depth = 1 ∧ (flow.compact 9).base.refinement? ⟨5⟩ = some ⟨0⟩ ∧
      (flow.compact 9).compact 10 = flow.compact 9 := by
  have hmade : (FlowStore.after enclosed (.empty, TypeTable.basic) entering).1.flows["inner"]?.any
      (fun flow => flow.depth = 3 ∧ flow.base.scope ≠ flow.scope ∧
        flow.base.refinement? ⟨5⟩ = some ⟨0⟩) = true := by decide +kernel
  obtain ⟨flow, hflow, hfacts⟩ := (Option.any_eq_true _ _).mp hmade
  obtain ⟨hdepth, hscope, hrefined⟩ := of_decide_eq_true hfacts
  obtain ⟨hlinks, _, hshort, hagain⟩ := FlowStore.Reachable.compact_isShortForm
    (FlowStore.reachable_after enclosed TypeTable.basic entering) hflow 9
  refine ⟨flow, hflow, hdepth ▸ hlinks, hshort, ?_, hshort.base ▸ hrefined, hagain 10⟩
  -- The entry is in another scope, so it does not take the place of the chain.
  have hlayer := mt hshort.depth_eq_zero_iff.mp fun hbare => hscope hbare.2
  have hone := hshort.depth_le_one
  omega

end FlowTyping
