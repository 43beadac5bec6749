import FlowTyping.Proofs.Flow.Order
import FlowTyping.Proofs.Flow.ScopeChange
import FlowTyping.Proofs.Implicit

/-!
# Refined implicit variables

An implicit variable is not declared, and what is not refined of it is synthesized. Changes of scope
and joins know refined names and declarations only: on entering a scope the refinement of an
implicit variable is kept whichever scopes own the variable, and in a join a branch that does not
refine it counts as untyped. The main statements tell exactly what becomes of the type.
-/
namespace FlowTyping.Flow
open TypeLattice Attempt

section
variable {Λ : Type} [TypeLattice Λ] {types : Λ} {forest : Forest} {flow made : Flow}
  {scope target : ScopeId} {var : Implicit} {name : Name} {stamp : Nat}

theorem implicitSlotType_of_refinement {type : TypeId}
    (hrefined : flow.refinement? var.name = some type) :
    flow.implicitSlotType forest types var = .ok (some type) := by
  rw [implicitSlotType, hrefined]

theorem implicitSlotType_of_none (hnone : flow.refinement? var.name = none) :
    flow.implicitSlotType forest types var = forest.synthesizedType types flow.scope var := by
  rw [implicitSlotType, hnone]
  rfl

theorem implicitSlotType_eq {synthesized : Option TypeId}
    (hsynthesized : forest.synthesizedType types flow.scope var = .ok synthesized) :
    flow.implicitSlotType forest types var =
      .ok ((flow.refinement? var.name).or synthesized) := by
  cases hrefined : flow.refinement? var.name with
  | none => rw [implicitSlotType_of_none hrefined, hsynthesized, Option.none_or]
  | some type => rw [implicitSlotType_of_refinement hrefined, Option.some_or]

/-- Where a flow scope is taken to another scope, the type of an implicit variable is synthesized
there, unless the variable was refined and its name is declared in the same way on both sides. Then
the refinement is kept, also if the variable of the other scope is a new one. -/
theorem implicitSlotType_of_enter (hforest : forest.Built) (types : Λ)
    (hscope : flow.scope.raw < forest.scopes.size) (htarget : target.raw < forest.scopes.size)
    (stamp : Nat) (var : Implicit) :
    ((∀ name ∈ flow.slotNames, forest.Interned name) →
      ∃ entered, flow.enter stamp forest target = .ok entered) ∧
    ∀ entered, flow.enter stamp forest target = .ok entered →
      (flow.refinement? var.name = none ∨
          forest.resolve flow.scope var.name ≠ forest.resolve target var.name →
        entered.implicitSlotType forest types var = forest.synthesizedType types target var) ∧
      ∀ type, flow.refinement? var.name = some type →
        forest.resolve flow.scope var.name = forest.resolve target var.name →
          entered.implicitSlotType forest types var = .ok (some type) := by
  have hsound := hforest.sound
  have hname := hforest.interned_implicit var
  refine ⟨fun hnames => Placed.exists_enter hsound ⟨hscope, hnames⟩ htarget stamp,
    fun entered hentered => ?_⟩
  obtain ⟨rfl, hrefinement⟩ := refinement?_of_enter hsound hentered var.name
  rw [hsound.resolve_eq hscope hname, hsound.resolve_eq htarget hname, ne_eq, Except.ok.injEq]
  constructor
  · intro hdropped
    apply implicitSlotType_of_none
    rw [hrefinement]
    rcases hdropped with hnone | hdiffers
    · rw [hnone, ite_self]
    · rw [if_neg hdiffers]
  · intro type htype hsame
    apply implicitSlotType_of_refinement
    rw [hrefinement, if_pos hsame, htype]

end

/-- A method in another method, with a variable that is spelled like an implicit one. -/
def methods : Forest :=
  (Forest.ofRoot .initial ⟨0⟩).after
    [.addScope ⟨0⟩ ⟨1⟩ (.function false) [] none, .setRootType ⟨1⟩ (some ⟨4⟩),
      .addScope ⟨1⟩ ⟨2⟩ (.function false) [] none, .setRootType ⟨2⟩ (some ⟨5⟩),
      .declare ⟨2⟩ (.spelled "super") ⟨none, none, none, false⟩]

def methodTypes : TypeTable :=
  ((TypeTable.basic.function (some ⟨1⟩)).2.function (some ⟨2⟩)).2

/-- A point in the outer method where the receiver is known to be a number. -/
def narrowed : Flow := (entry 0 ⟨1⟩).refine 1 .this ⟨0⟩

theorem methods_built : methods.Built := ⟨⟨0⟩, _, rfl⟩

theorem implicitSlotType_of_enter_of_methods :
    let flow := narrowed.refine 2 .super ⟨0⟩
    ∃ entered, flow.enter 3 methods ⟨2⟩ = .ok entered ∧
      entered.implicitSlotType methods methodTypes .this = .ok (some ⟨0⟩) ∧
      entered.implicitSlotType methods methodTypes .super =
        methods.synthesizedType methodTypes ⟨2⟩ .super ∧
      entered.implicitSlotType methods methodTypes .arguments =
        methods.synthesizedType methodTypes ⟨2⟩ .arguments := by
  intro flow
  have hscope : flow.scope.raw < methods.scopes.size := by decide +kernel
  have htarget : (⟨2⟩ : ScopeId).raw < methods.scopes.size := by decide +kernel
  have hlaw := implicitSlotType_of_enter methods_built methodTypes hscope htarget 3
  obtain ⟨entered, hentered⟩ := (hlaw .this).1 (by decide +kernel)
  refine ⟨entered, hentered, ?_, ?_, ?_⟩
  · exact ((hlaw .this).2 entered hentered).2 ⟨0⟩ (by decide +kernel) (by decide +kernel)
  · exact ((hlaw .super).2 entered hentered).1 (.inr (by decide +kernel))
  · exact ((hlaw .arguments).2 entered hentered).1 (.inl (by decide +kernel))

/-- What is known of the receiver of the outer method is taken to be true of that of the inner. -/
theorem enter_keeps_receiver :
    let owner := fun scope => methods.nearest (fun within => Implicit.this.isMadeBy within.kind) scope
    methods.Built ∧ owner narrowed.scope = .ok (some ⟨1⟩) ∧ owner ⟨2⟩ = .ok (some ⟨2⟩) ∧
    methods.synthesizedType methodTypes ⟨2⟩ .this = .ok (some ⟨2⟩) ∧
    ∃ entered, narrowed.enter 2 methods ⟨2⟩ = .ok entered ∧
      entered.implicitSlotType methods methodTypes .this = .ok (some ⟨0⟩) := by
  intro owner
  have hentered : narrowed.enter 2 methods ⟨2⟩ = .ok (narrowed.push 2 ⟨2⟩) := by decide +kernel
  exact ⟨methods_built, by decide +kernel, by decide +kernel, by decide +kernel, _, hentered,
    by decide +kernel⟩

section Join
variable {forest : Forest} {table later : TypeTable} {scope : ScopeId} {flow result : Flow}
  {flows others : List Flow} {var : Implicit} {synthesized : Option TypeId} {stamp : Nat}

theorem mapM_implicitSlotType (hscopes : ∀ flow ∈ flows, flow.scope = scope)
    (hsynthesized : forest.synthesizedType table scope var = .ok synthesized) :
    flows.mapM (·.implicitSlotType forest table var) =
      .ok (flows.map fun flow => (flow.refinement? var.name).or synthesized) := by
  rw [Except.mapM_eq_ok_iff, List.forall₂_map_right_iff, List.forall₂_same]
  intro flow hflow
  exact implicitSlotType_eq ((hscopes flow hflow).symm ▸ hsynthesized)

private theorem implicitSlotType_of_joinSeveral (hforest : forest.Sound) (htable : table.Sound)
    (htyped : forest.Typed table) (hscope : forest.Live scope)
    (hscopes : ∀ branch ∈ flow :: others, branch.scope = scope)
    (htypes : ∀ branch ∈ flow :: others, ∀ name, table.Holds (branch.refinement? name))
    (hsynthesized : forest.synthesizedType table scope var = .ok synthesized)
    (hrun : (joinSeveral stamp forest flow others).run.run table = (.ok result, later)) :
    let declared := forest.declared? scope var.name
    later.Sound ∧ table.Grows later ∧ ∃ joined,
      later.JoinOf ((flow :: others).map fun branch => (branch.refinement? var.name).or declared)
        joined ∧
      result.implicitSlotType forest later var =
        .ok (if joined = declared then synthesized else joined) := by
  intro declared
  obtain ⟨hsound, hgrows, hgathers, _, hrefined⟩ := gathers_of_joinSeveral hforest htable htyped
    (fun branch hbranch => (hscopes branch hbranch).symm ▸ hscope) htypes hrun
  have hresult : result.scope = scope := by
    refine hforest.nearestAround_unique hgathers.live.lt_size hscope.lt_size hgathers.scope ?_
    exact Forest.nearestAround_of_forall (by simp) (List.forall_mem_map.mpr hscopes)
  -- All branches live in the scope of the join, so each contributes its own effective type.
  have hcontributions : (flow :: others).map (seen? forest result.scope var.name) =
      (flow :: others).map fun branch => (branch.refinement? var.name).or declared := by
    refine List.map_congr_left fun branch hbranch => ?_
    have hbranchScope := hscopes branch hbranch
    rw [hresult, ← hbranchScope, seen?_self, effective?, hbranchScope]
  refine ⟨hsound, hgrows, result.effective? forest var.name,
    hcontributions ▸ hgathers.joined var.name, ?_⟩
  have hagain : forest.synthesizedType later result.scope var = .ok synthesized :=
    hresult ▸ Forest.synthesizedType_le hgrows.keeps scope var _ hsynthesized
  have hname := hrefined var.name
  rw [mem_slotNames, hresult] at hname
  rw [implicitSlotType_eq hagain]
  cases hrefinement : result.refinement? var.name with
  | none =>
    have heffective : result.effective? forest var.name = declared := by
      rw [effective?, hrefinement, Option.none_or, hresult]
    rw [if_pos heffective, Option.none_or]
  | some type =>
    have hdiffers := hname.mp (by rw [hrefinement]; rfl)
    rw [if_neg hdiffers, effective?, hrefinement, Option.some_or, Option.some_or]

private theorem joinAll_synthesized {declared joined : Option TypeId} (hsound : table.Sound)
    (hflows : flows ≠ [])
    (hjoin : table.JoinOf (flows.map fun flow => (flow.refinement? var.name).or declared) joined)
    (hcases : synthesized = declared ∨ (∀ flow ∈ flows, flow.refinement? var.name = none) ∨
      (declared = none ∧ ∀ flow ∈ flows, flow.refinement? var.name ≠ none)) :
    (TypeTable.joinAll
      (flows.map fun flow => (flow.refinement? var.name).or synthesized)).run.run table =
        (.ok (if joined = declared then synthesized else joined), table) := by
  have hagain := hjoin.again table (.refl table) hsound
  rcases hcases with rfl | hnone | ⟨rfl, hall⟩
  · -- What stands in is the same type on both sides.
    have hjoined : (if joined = synthesized then synthesized else joined) = joined := by
      split
      next hsame => exact hsame.symm
      next => rfl
    rw [hagain, hjoined]
  · -- No branch has a type of its own, so a join is the type that stands in for all of them.
    have honly : ∀ slot : Option TypeId,
        TypeTable.joinAll (flows.map fun flow => (flow.refinement? var.name).or slot) = pure slot :=
      fun slot => TypeTable.joinAll_of_forall (by simpa using hflows) <|
        List.forall_mem_map.mpr fun flow hflow => by rw [hnone flow hflow, Option.none_or]
    rw [honly declared] at hagain
    rw [honly synthesized, if_pos (run_pure_eq_ok_iff.mp hagain).1.symm]
    rfl
  · -- Every branch has a type of its own, so nothing stands in.
    have hrefined : ∀ flow ∈ flows, (flow.refinement? var.name).or synthesized =
        (flow.refinement? var.name).or none := by
      intro flow hflow
      obtain ⟨type, htype⟩ := Option.ne_none_iff_exists'.mp (hall flow hflow)
      rw [htype, Option.some_or, Option.some_or]
    have hjoined : joined ≠ none := by
      obtain ⟨flow, hflow⟩ := List.exists_mem_of_ne_nil flows hflows
      obtain ⟨type, htype⟩ := Option.ne_none_iff_exists'.mp (hall flow hflow)
      have hmem := List.mem_map_of_mem (f := fun flow => (flow.refinement? var.name).or none) hflow
      rw [htype, Option.some_or] at hmem
      exact hjoin.ne_none hmem
    rw [List.map_congr_left hrefined, hagain, if_neg hjoined]

/-- Where branches of one scope meet, an implicit variable gets the join of its types on the
branches in four cases: there is one branch only, the variable is synthesized with the type that its
name is declared with, no branch refines it, or all branches do and the name is not declared.
Otherwise the branches that do not refine it count with the declared type of the name, and not with
the type that they synthesize. -/
theorem implicitSlotType_of_join (hforest : forest.Built) (htable : table.Built)
    (htyped : forest.Typed table) (hscope : forest.Live scope) (hflows : flows ≠ [])
    (hscopes : ∀ flow ∈ flows, flow.scope = scope)
    (htypes : ∀ flow ∈ flows, ∀ name, table.Holds (flow.refinement? name))
    (hsynthesized : forest.synthesizedType table scope var = .ok synthesized) (stamp : Nat) :
    ((∀ flow ∈ flows, ∀ name ∈ flow.slotNames, forest.Interned name) →
      ∃ result later, (join stamp forest flows).run.run table = (.ok result, later)) ∧
    ∀ result later, (join stamp forest flows).run.run table = (.ok result, later) →
      ∃ declared, forest.declaredType scope var.name = .ok declared ∧
        (2 ≤ flows.length → ∃ joined,
          ((flows.map fun flow => (flow.refinement? var.name).or declared).foldlM joinSlots none :
            Attempt UnknownType TypeTable _).run.run later = (.ok joined, later) ∧
          result.implicitSlotType forest later var =
            .ok (if joined = declared then synthesized else joined)) ∧
        (flows.length = 1 ∨ synthesized = declared ∨
            (∀ flow ∈ flows, flow.refinement? var.name = none) ∨
            (declared = none ∧ ∀ flow ∈ flows, flow.refinement? var.name ≠ none) →
          ∃ slots joined, flows.mapM (·.implicitSlotType forest later var) = .ok slots ∧
            (slots.foldlM joinSlots none : Attempt UnknownType TypeTable _).run.run later =
              (.ok joined, later) ∧
            result.implicitSlotType forest later var = .ok joined) := by
  have hsound := hforest.sound
  have hlive : flows.filter (isReachable forest) = flows := by
    refine List.filter_eq_self.mpr fun flow hflow => isReachable_iff.mpr ?_
    rw [hscopes flow hflow]
    exact hscope
  have hsizes : ∀ flow ∈ flows, flow.scope.raw < forest.scopes.size := by
    intro flow hflow
    rw [hscopes flow hflow]
    exact hscope.lt_size
  refine ⟨fun hnames => ?_, fun result later hrun => ?_⟩
  · obtain ⟨result, later, hsettles, _⟩ := join_settles hsound htable.sound htyped stamp hflows
      hsizes fun flow hflow =>
        have hmem := hlive ▸ hflow
        ⟨hsizes flow hmem, hnames flow hmem, htypes flow hmem⟩
    exact ⟨result, later, hsettles.run⟩
  · refine ⟨_, hsound.declaredType_eq hscope.lt_size (hforest.interned_implicit var), ?_⟩
    rcases join_cases hrun with ⟨_, _, hnone, _⟩ | ⟨honly, rfl⟩ | ⟨flow, next, others, hmany, hmade⟩
    · rw [← hlive, ← live_eq_filter hnone] at hflows
      exact absurd rfl hflows
    · obtain rfl : [result] = flows := (live_eq_filter honly).trans hlive
      refine ⟨fun hseveral => absurd hseveral (by simp), fun _ => ?_⟩
      have hslot := implicitSlotType_eq ((hscopes result (by simp)).symm ▸ hsynthesized)
      refine ⟨_, _, mapM_implicitSlotType hscopes hsynthesized, ?_, hslot⟩
      rw [List.map_singleton, ← TypeTable.joinAll, TypeTable.joinAll_singleton]
      rfl
    · obtain rfl : flow :: next :: others = flows := (live_eq_filter hmany).trans hlive
      obtain ⟨hlater, hgrows, joined, hjoin, hslot⟩ := implicitSlotType_of_joinSeveral hsound
        htable.sound htyped hscope hscopes htypes hsynthesized hmade
      refine ⟨fun _ => ⟨joined, hjoin.again later (.refl later) hlater, hslot⟩, fun hcases => ?_⟩
      have hagain := Forest.synthesizedType_le hgrows.keeps scope var _ hsynthesized
      refine ⟨_, _, mapM_implicitSlotType hscopes hagain, ?_, hslot⟩
      exact joinAll_synthesized hlater hflows hjoin (hcases.resolve_left (by simp))

end Join

theorem methodTypes_built : methodTypes.Built := .function _ (.function _ .basic)

theorem methods_typed : methods.Typed methodTypes := by
  have hvars : ∀ var ∈ methods.vars, var.type = none := by decide +kernel
  intro var hvar type htype
  rw [hvars var hvar] at htype
  cases htype

def narrowedBranches : List Flow := [narrowed, (entry 2 ⟨1⟩).refine 3 .this ⟨2⟩]

theorem narrowedBranches_fit : ∀ flow ∈ narrowedBranches, flow.Fits methods methodTypes := by
  have hscope : (⟨1⟩ : ScopeId).raw < methods.scopes.size := by decide +kernel
  have hthis : methods.Interned .this := by decide +kernel
  intro flow hflow
  rcases List.mem_pair.mp hflow with rfl | rfl
  · exact (fits_entry 0 hscope).refine 1 hthis (by decide +kernel)
  · exact (fits_entry 2 hscope).refine 3 hthis (by decide +kernel)

theorem implicitSlotType_of_join_of_methods :
    methods.synthesizedType methodTypes ⟨1⟩ .this = .ok (some ⟨1⟩) ∧
    ∃ result later, (join 4 methods narrowedBranches).run.run methodTypes = (.ok result, later) ∧
      ∃ slots joined,
        narrowedBranches.mapM (·.implicitSlotType methods later .this) = .ok slots ∧
        (slots.foldlM joinSlots none : Attempt UnknownType TypeTable _).run.run later =
          (.ok joined, later) ∧
        result.implicitSlotType methods later .this = .ok joined := by
  have hreceiver : methods.synthesizedType methodTypes ⟨1⟩ .this = .ok (some ⟨1⟩) := by
    decide +kernel
  have hscope : methods.Live narrowed.scope := isReachable_iff.mp (by decide +kernel)
  obtain ⟨hsucceeds, hlaw⟩ := implicitSlotType_of_join methods_built methodTypes_built methods_typed
    hscope (List.cons_ne_nil _ _) (by decide)
    (fun flow hflow => (narrowedBranches_fit flow hflow).types) hreceiver 4
  obtain ⟨result, later, hrun⟩ := hsucceeds fun flow hflow => (narrowedBranches_fit flow hflow).names
  obtain ⟨declared, hdeclared, _, hjoins⟩ := hlaw result later hrun
  have hnone : methods.declaredType ⟨1⟩ .this = .ok none := by decide +kernel
  obtain rfl := Except.ok.inj (hnone.symm.trans hdeclared)
  exact ⟨hreceiver, result, later, hrun, hjoins (.inr (.inr (.inr ⟨rfl, by decide +kernel⟩)))⟩

/-- Where one branch narrows the receiver, the join takes all branches to do so: the type that the
other branch synthesizes is left out. -/
theorem join_forgets_receiver :
    let flows := [narrowed, entry 2 ⟨1⟩]
    methods.Built ∧ methodTypes.Built ∧
    methods.synthesizedType methodTypes ⟨1⟩ .this = .ok (some ⟨1⟩) ∧
    ∃ result later slots,
      (join 3 methods flows).run.run methodTypes = (.ok result, later) ∧
      result.implicitSlotType methods later .this = .ok (some ⟨0⟩) ∧
      flows.mapM (·.implicitSlotType methods later .this) = .ok slots ∧
      ∃ joined last, (slots.foldlM joinSlots none : Attempt UnknownType TypeTable _).run.run later =
        (.ok joined, last) ∧ joined ≠ some ⟨0⟩ := by
  intro flows
  have hjoin : (join 3 methods flows).run.run methodTypes =
      (.ok (overEntry 3 ⟨1⟩ (Std.ExtTreeMap.insert ∅ .this ⟨0⟩)), methodTypes) := by
    change @Eq (Except Fault Flow × TypeTable) _ _
    decide +kernel
  have hslots : ([some ⟨0⟩, some ⟨1⟩].foldlM joinSlots none :
      Attempt UnknownType TypeTable _).run.run methodTypes =
        (.ok (some ⟨6⟩), (methodTypes.intern (.union [⟨0⟩, ⟨1⟩])).2) := by
    change @Eq (Except UnknownType (Option TypeId) × TypeTable) _ _
    decide +kernel
  exact ⟨methods_built, methodTypes_built, by decide +kernel, _, _, [some ⟨0⟩, some ⟨1⟩], hjoin,
    by decide +kernel, by decide +kernel, _, _, hslots, by decide⟩

end FlowTyping.Flow
