import FlowTyping.Proofs.Flow.Seen

/-!
# Where branches meet

A join folds over few names, keeps few of the results, and leaves the rest to the declarations of
the common scope. What comes out has for every name the join of what all reachable branches
contribute to it.
-/
namespace FlowTyping.Flow
open TypeLattice Attempt
variable {forest : Forest} {table later : TypeTable} {scope : ScopeId} {flow result : Flow}

theorem joinedType_eq (declared : Option TypeId) (name : Name) (branches : List Slots) :
    (joinedType declared name branches : Attempt UnknownType TypeTable (Option TypeId)) =
      TypeTable.joinAll (branches.map fun slots => slots[name]?.or declared) := by
  rw [joinedType, TypeTable.joinAll, List.foldlM_map]

private def keepJoined (name : Name) (declared joined : Option TypeId) (slots : Slots) : Slots :=
  match joined with
  | some type => if joined = declared then slots else slots.insert name type
  | none => slots

private theorem getElem?_keepJoined {name other : Name} {declared joined : Option TypeId}
    {slots : Slots} (hnew : slots[name]? = none) :
    (keepJoined name declared joined slots)[other]? =
      if other = name then (if joined = declared then none else joined) else slots[other]? := by
  cases joined with
  | none =>
    by_cases hother : other = name
    · subst hother
      simp [keepJoined, hnew]
    · simp [keepJoined, hother]
  | some type =>
    by_cases hsame : some type = declared
    · by_cases hother : other = name
      · subst hother
        simp [keepJoined, hsame, hnew]
      · simp [keepJoined, hsame, hother]
    · by_cases hother : other = name
      · subst hother
        simp [keepJoined, hsame]
      · have hne : ¬name = other := fun heq => hother heq.symm
        simp [keepJoined, hsame, hother, Std.ExtTreeMap.getElem?_insert, hne]

private theorem joinedSlots_cons {branches : List Slots} {name : Name} {names : List Name}
    {declared : Option TypeId} (hdeclared : forest.declaredType scope name = .ok declared) :
    (joinedSlots forest scope branches (name :: names) : Attempt Fault TypeTable Slots) = do
      let joined ← (TypeTable.joinAll
        (branches.map fun slots => slots[name]?.or declared)).failing UnknownType.fault
      let slots ← joinedSlots forest scope branches names
      return keepJoined name declared joined slots := by
  rw [joinedSlots, hdeclared, answer_ok, pure_bind, joinedType_eq]
  refine bind_congr fun joined => ?_
  simp only [TypeTable.sameSlots_eq]
  have hget : ∀ rest : Attempt Fault TypeTable Slots, (do let _ ← get; rest) = rest :=
    fun _ => rfl
  rw [hget]
  refine bind_congr fun slots => ?_
  cases joined with
  | none => rfl
  | some type => simp only [keepJoined, decide_eq_true_eq]

/-- The slots that are joined over a list of names are the joined types that are not declared. -/
theorem joinedSlots_settles (hforest : forest.Sound) {branches : List Slots} {names : List Name}
    (hnames : ∀ name ∈ names, forest.Tells scope name) (hnodup : names.Nodup)
    (htable : table.Sound) (htyped : forest.Typed table)
    (hbranches : ∀ slots ∈ branches, ∀ name : Name, table.Holds slots[name]?) :
    ∃ slots later, table.Settles (joinedSlots forest scope branches names) slots later ∧
      (∀ name ∉ names, slots[name]? = none) ∧
      ∀ name ∈ names, ∃ joined,
        later.JoinOf (branches.map fun slots => slots[name]?.or (forest.declared? scope name))
          joined ∧
        slots[name]? = if joined = forest.declared? scope name then none else joined := by
  -- Every join may enter new types, so the table is a different one for the remaining names.
  induction names generalizing table with
  | nil => exact ⟨∅, table, htable.settles_pure ∅, by simp, by simp⟩
  | cons first names ih =>
    obtain ⟨hfirst, hnames⟩ := List.forall_mem_cons.mp hnames
    obtain ⟨hnew, hnodup⟩ := List.nodup_cons.mp hnodup
    have hdeclared := htyped.declared hforest scope first
    have hslots : ∀ slot ∈ branches.map fun slots => slots[first]?.or (forest.declared? scope first),
        table.Holds slot := by
      intro slot hslot
      obtain ⟨slots, hmem, rfl⟩ := List.mem_map.mp hslot
      have hslots := hbranches slots hmem first
      cases hget : slots[first]? with
      | none => exact hdeclared
      | some type =>
        rw [hget] at hslots
        exact hslots
    obtain ⟨joined, between, hjoined, hjoinOf⟩ := htable.joinAll_settles hslots
    obtain ⟨rest, later, hrest, hothers, hrestJoined⟩ := ih hnames hnodup hjoined.sound
      (htyped.grow hjoined.grows)
      fun slots hmem name => hjoined.grows.holds (hbranches slots hmem name)
    have hnone : rest[first]? = none := hothers first hnew
    refine ⟨keepJoined first (forest.declared? scope first) joined rest, later, ?_, ?_, ?_⟩
    · rw [joinedSlots_cons hfirst.declaredType_eq]
      exact (hjoined.failing UnknownType.fault).bind (hrest.map (keepJoined first _ joined))
    · intro name hname
      obtain ⟨hne, hname⟩ := not_or.mp (mt List.mem_cons.mpr hname)
      rw [getElem?_keepJoined hnone, if_neg hne]
      exact hothers name hname
    · intro name hname
      rw [getElem?_keepJoined hnone]
      rcases List.mem_cons.mp hname with rfl | hname
      · exact ⟨joined, hjoinOf.grow hrest.grows, if_pos rfl⟩
      · have hne : name ≠ first := fun heq => hnew (heq ▸ hname)
        rw [if_neg hne]
        exact hrestJoined name hname

/-- A flow scope that has what several others contribute: it lives in the nearest scope around them,
has for every name the join of their contributions, and refines nothing that none of them does. -/
structure Gathers (result : Flow) (forest : Forest) (table : TypeTable) (flows : List Flow) :
    Prop where
  live : forest.Live result.scope
  scope : forest.NearestAround (flows.map Flow.scope) result.scope
  joined : ∀ name,
    table.JoinOf (flows.map (seen? forest result.scope name)) (result.effective? forest name)
  refined : ∀ name ∈ result.slotNames, ∃ flow ∈ flows, name ∈ flow.visible forest result.scope

/-- A flow scope that stands for several others: it lives in the nearest scope around them, and has
for every name the join of what they contribute. -/
structure Merges (result : Flow) (forest : Forest) (table : TypeTable) (flows : List Flow) :
    Prop where
  fits : result.Fits forest table
  live : forest.Live result.scope
  scope : forest.NearestAround (flows.map Flow.scope) result.scope
  joined : ∀ name,
    table.JoinOf (flows.map (seen? forest result.scope name)) (result.effective? forest name)

/-- The names that are joined are those that are refined on a branch, seen from the common scope. -/
theorem mem_keys_iff_visible {flows : List Flow} {name : Name} :
    name ∈ ((flows.map (visible forest scope)).foldl (· ∪ ·) (∅ : Slots)).keys ↔
      ∃ flow ∈ flows, name ∈ flow.visible forest scope := by
  rw [Std.ExtTreeMap.mem_keys, mem_foldl_union, or_iff_right Std.ExtTreeMap.not_mem_empty]
  simp only [List.mem_map, exists_exists_and_eq_and]

private theorem joined_slot {flows : List Flow} (hflows : flows ≠ []) {slots : Slots} {name : Name}
    (hdeclared : table.Holds (forest.declared? scope name))
    (hothers : (∀ flow ∈ flows, name ∉ flow.visible forest scope) → slots[name]? = none)
    (hjoined : ∀ flow ∈ flows, name ∈ flow.visible forest scope →
      ∃ joined, table.JoinOf (flows.map (seen? forest scope name)) joined ∧
        slots[name]? = if joined = forest.declared? scope name then none else joined) :
    table.JoinOf (flows.map (seen? forest scope name))
        (slots[name]?.or (forest.declared? scope name)) ∧
      (slots[name]?.isSome ↔
        slots[name]?.or (forest.declared? scope name) ≠ forest.declared? scope name) := by
  by_cases hnone : ∀ flow ∈ flows, name ∉ flow.visible forest scope
  · -- The name was not joined, and is declared on every branch.
    rw [hothers hnone, Option.none_or]
    refine ⟨.of_forall (by simpa using hflows) ?_ hdeclared, by simp⟩
    intro slot hslot
    obtain ⟨flow, hflow, rfl⟩ := List.mem_map.mp hslot
    rw [← visible_or_declared, Std.ExtTreeMap.getElem?_eq_none (hnone flow hflow), Option.none_or]
  · obtain ⟨flow, hflow, hvisible⟩ : ∃ flow ∈ flows, name ∈ flow.visible forest scope := by
      by_contra hall
      exact hnone fun flow hflow hvisible => hall ⟨flow, hflow, hvisible⟩
    obtain ⟨joined, hjoinOf, hslot⟩ := hjoined flow hflow hvisible
    obtain ⟨type, htype⟩ :=
      Option.isSome_iff_exists.mp (Std.ExtTreeMap.mem_iff_isSome_getElem?.mp hvisible)
    -- A branch has a type for the name, so the join has one.
    have htyped : joined ≠ none := by
      have hseen : flow.seen? forest scope name = some type := by
        rw [← visible_or_declared, htype, Option.some_or]
      apply hjoinOf.ne_none
      rw [← hseen]
      exact List.mem_map_of_mem hflow
    obtain ⟨joinedType, rfl⟩ := Option.ne_none_iff_exists'.mp htyped
    rw [hslot]
    by_cases hsame : some joinedType = forest.declared? scope name
    · rw [if_pos hsame, Option.none_or, ← hsame]
      exact ⟨hjoinOf, by simp⟩
    · rw [if_neg hsame, Option.some_or]
      exact ⟨hjoinOf, by simpa using hsame⟩

private theorem visibleSlots_settles (hforest : forest.Sound) (htable : table.Sound)
    (htyped : forest.Typed table) {flows : List Flow} (hflows : flows ≠ [])
    (htypes : ∀ flow ∈ flows, ∀ name, table.Holds (flow.refinement? name))
    (htells : ∀ flow ∈ flows, ∀ name ∈ flow.visible forest scope, forest.Tells scope name) :
    let branches := flows.map (visible forest scope)
    ∃ slots later, table.Settles
        (joinedSlots forest scope branches (branches.foldl (· ∪ ·) (∅ : Slots)).keys) slots later ∧
      (∀ name ∈ slots, ∃ flow ∈ flows, name ∈ flow.visible forest scope) ∧
      ∀ name, later.JoinOf (flows.map (seen? forest scope name))
          (slots[name]?.or (forest.declared? scope name)) ∧
        (name ∈ slots ↔
          slots[name]?.or (forest.declared? scope name) ≠ forest.declared? scope name) := by
  intro branches
  have hkeys : ∀ name, name ∈ (branches.foldl (· ∪ ·) (∅ : Slots)).keys ↔
      ∃ flow ∈ flows, name ∈ flow.visible forest scope :=
    fun name => mem_keys_iff_visible
  generalize hnames : (branches.foldl (· ∪ ·) (∅ : Slots)).keys = names at hkeys ⊢
  have htells : ∀ name ∈ names, forest.Tells scope name := by
    intro name hname
    obtain ⟨flow, hflow, hvisible⟩ := (hkeys name).mp hname
    exact htells flow hflow name hvisible
  have hholds : ∀ slots ∈ branches, ∀ name : Name, table.Holds slots[name]? := by
    intro slots hslots name
    obtain ⟨flow, hflow, rfl⟩ := List.mem_map.mp hslots
    rw [getElem?_visible]
    split
    next => exact htypes flow hflow name
    next => exact fun type htype => by cases htype
  have hnodup : names.Nodup := hnames ▸ Std.ExtTreeMap.nodup_keys
  obtain ⟨slots, later, hslots, hothers, hjoined⟩ :=
    joinedSlots_settles hforest htells hnodup htable htyped hholds
  have hjoined : ∀ name ∈ names, ∃ joined,
      later.JoinOf (flows.map (seen? forest scope name)) joined ∧
        slots[name]? = if joined = forest.declared? scope name then none else joined := by
    simpa only [branches, List.map_map, Function.comp_def, visible_or_declared] using hjoined
  have hdeclared := (htyped.grow hslots.grows).declared hforest scope
  refine ⟨slots, later, hslots, fun name hname => ?_, fun name => ?_⟩
  · apply (hkeys name).mp
    by_contra hnot
    rw [Std.ExtTreeMap.mem_iff_isSome_getElem?, hothers name hnot] at hname
    cases hname
  · rw [Std.ExtTreeMap.mem_iff_isSome_getElem?]
    refine joined_slot hflows (hdeclared name) (fun hnone => ?_) fun flow hflow hvisible => ?_
    · refine hothers name fun hname => ?_
      obtain ⟨flow, hflow, hvisible⟩ := (hkeys name).mp hname
      exact hnone flow hflow hvisible
    · exact hjoined name ((hkeys name).mpr ⟨flow, hflow, hvisible⟩)

/-- The join of several reachable branches, wherever the names that they refine can be told, gathers
what they contribute, and refines what is not declared so. -/
theorem joinSeveral_gathers (hforest : forest.Sound) (htable : table.Sound)
    (htyped : forest.Typed table) {others : List Flow} (stamp : Nat)
    (hlive : ∀ branch ∈ flow :: others, forest.Live branch.scope)
    (htypes : ∀ branch ∈ flow :: others, ∀ name, table.Holds (branch.refinement? name))
    (haround : scopeAround forest flow.scope others = .ok scope)
    (hbranches : (flow :: others).mapM (fun branch => branch.refinementsIn forest scope) =
      .ok ((flow :: others).map (visible forest scope)))
    (htells : ∀ branch ∈ flow :: others, ∀ name ∈ branch.visible forest scope,
      forest.Tells scope name) :
    ∃ result later, table.Settles (joinSeveral stamp forest flow others) result later ∧
      result.scope = scope ∧ result.Gathers forest later (flow :: others) ∧
      ∀ name, name ∈ result.slotNames ↔
        result.effective? forest name ≠ forest.declared? result.scope name := by
  obtain ⟨hfirst, hrest⟩ := List.forall_mem_cons.mp hlive
  obtain ⟨_, haround', hscopeLive, hnear⟩ := scopeAround_spec hforest hfirst hrest
  obtain rfl := Except.ok.inj (haround.symm.trans haround')
  obtain ⟨slots, later, hslots, hkept, hjoin⟩ :=
    visibleSlots_settles hforest htable htyped (List.cons_ne_nil flow others) htypes htells
  have hnames : ∀ name, name ∈ (overEntry stamp scope slots).slotNames ↔ name ∈ slots := by
    intro name
    rw [mem_slotNames, refinement?_overEntry, Std.ExtTreeMap.mem_iff_isSome_getElem?]
  have heffective : ∀ name, (overEntry stamp scope slots).effective? forest name =
      slots[name]?.or (forest.declared? scope name) := by
    intro name
    rw [effective?, refinement?_overEntry]
    rfl
  refine ⟨overEntry stamp scope slots, later, ?_, rfl, ⟨hscopeLive, hnear, ?_, ?_⟩, ?_⟩
  · rw [joinSeveral, haround, answer_ok, pure_bind, hbranches, answer_ok, pure_bind]
    exact hslots.map (overEntry stamp scope)
  · intro name
    rw [heffective]
    exact (hjoin name).1
  · intro name hname
    exact hkept name ((hnames name).mp hname)
  · intro name
    rw [hnames, heffective]
    exact (hjoin name).2

theorem Gathers.types {flows : List Flow} (hgathers : result.Gathers forest table flows)
    (name : Name) : table.Holds (result.refinement? name) := by
  intro type htype
  apply (hgathers.joined name).holds
  rw [effective?, htype]
  rfl

/-- The join of several reachable branches merges them, and refines what is not declared so. -/
theorem joinSeveral_settles (hforest : forest.Sound) (htable : table.Sound)
    (htyped : forest.Typed table) {others : List Flow} (stamp : Nat)
    (hlive : ∀ branch ∈ flow :: others, forest.Live branch.scope)
    (hfits : ∀ branch ∈ flow :: others, branch.Fits forest table) :
    ∃ result later, table.Settles (joinSeveral stamp forest flow others) result later ∧
      result.Merges forest later (flow :: others) ∧
      ∀ name, name ∈ result.slotNames ↔
        result.effective? forest name ≠ forest.declared? result.scope name := by
  obtain ⟨hfirst, hrest⟩ := List.forall_mem_cons.mp hlive
  obtain ⟨scope, haround, hscopeLive, hnear⟩ := scopeAround_spec hforest hfirst hrest
  have hscope := hscopeLive.lt_size
  have hinterned : ∀ branch ∈ flow :: others, ∀ name ∈ branch.visible forest scope,
      forest.Interned name :=
    fun branch hbranch name hname =>
      (hfits branch hbranch).names name (mem_slotNames_of_mem_visible hname)
  have hbranches : (flow :: others).mapM (fun branch => branch.refinementsIn forest scope) =
      .ok ((flow :: others).map (visible forest scope)) := by
    rw [Except.mapM_eq_ok_iff, List.forall₂_map_right_iff, List.forall₂_same]
    exact fun branch hbranch => (hfits branch hbranch).placed.refinementsIn_eq hforest hscope
  obtain ⟨result, later, hsettles, rfl, hgathers, hrefined⟩ :=
    joinSeveral_gathers hforest htable htyped stamp hlive
      (fun branch hbranch => (hfits branch hbranch).types) haround hbranches
      fun branch hbranch name hname => hforest.tells hscope (hinterned branch hbranch name hname)
  refine ⟨result, later, hsettles, ⟨⟨hscope, fun name hname => ?_, hgathers.types⟩,
    hgathers.live, hgathers.scope, hgathers.joined⟩, hrefined⟩
  obtain ⟨branch, hbranch, hvisible⟩ := hgathers.refined name hname
  exact hinterned branch hbranch name hvisible

theorem join_eq_joinSeveral {flows others : List Flow} {next : Flow} (stamp : Nat)
    (hscopes : ∀ flow ∈ flows, flow.scope.raw < forest.scopes.size)
    (hreachable : flows.filter (isReachable forest) = flow :: next :: others) :
    (join stamp forest flows : Attempt Fault TypeTable Flow) =
      joinSeveral stamp forest flow (next :: others) := by
  have hlive := live_eq_ok hscopes
  rw [hreachable] at hlive
  cases flows with
  | nil => cases hreachable
  | cons first flows => exact join_of_live_several hlive

/-- The join of at least two reachable branches lives in the nearest scope around them, and gives
every name the join, from left to right, of what these branches contribute to it. The names that it
refines are those for which this is not the declared type. All other branches do not count. -/
theorem join_pointwise (hforest : forest.Built) (htable : table.Built)
    (htyped : forest.Typed table) {flows : List Flow}
    (hscopes : ∀ flow ∈ flows, flow.scope.raw < forest.scopes.size)
    (hseveral : 2 ≤ (flows.filter (isReachable forest)).length)
    (hfits : ∀ flow ∈ flows.filter (isReachable forest), flow.Fits forest table) (stamp : Nat) :
    let reachable := flows.filter (isReachable forest)
    (join stamp forest flows : Attempt Fault TypeTable Flow) = join stamp forest reachable ∧
    ∃ result later, (join stamp forest flows).run.run table = (.ok result, later) ∧
      table.Grows later ∧ forest.Live result.scope ∧
      forest.NearestAround (reachable.map Flow.scope) result.scope ∧
      (∀ name ∈ result.slotNames, forest.Interned name) ∧
      ∀ name, forest.Interned name → ∃ contributions joined declared,
        reachable.mapM (contribution forest result.scope name) = .ok contributions ∧
        (contributions.foldlM joinSlots none : Attempt UnknownType TypeTable _).run.run later =
          (.ok joined, later) ∧
        result.slotType forest name = .ok joined ∧
        forest.declaredType result.scope name = .ok declared ∧
        (name ∈ result.slotNames ↔ joined ≠ declared) := by
  have hsound := hforest.sound
  have hlive : ∀ flow ∈ flows.filter (isReachable forest), forest.Live flow.scope := by
    intro flow hflow
    exact isReachable_iff.mp (List.mem_filter.mp hflow).2
  have hagain : (flows.filter (isReachable forest)).filter (isReachable forest) =
      flows.filter (isReachable forest) := by
    rw [List.filter_filter]
    simp only [Bool.and_self]
  dsimp only
  generalize hreachable : flows.filter (isReachable forest) = reachable at *
  obtain _ | ⟨flow, _ | ⟨next, others⟩⟩ := reachable
  · simp at hseveral
  · simp at hseveral
  have hflows := join_eq_joinSeveral stamp hscopes hreachable
  have hsame := join_eq_joinSeveral stamp (fun flow hflow => (hlive flow hflow).lt_size) hagain
  obtain ⟨result, later, hsettles, hmerges, hrefined⟩ :=
    joinSeveral_settles hsound htable.sound htyped stamp hlive hfits
  refine ⟨hflows.trans hsame.symm, result, later, hflows ▸ hsettles.run, hsettles.grows,
    hmerges.live, hmerges.scope, hmerges.fits.names, fun name hname => ?_⟩
  have hscope := hmerges.live.lt_size
  refine ⟨(flow :: next :: others).map (seen? forest result.scope name),
    result.effective? forest name, _, ?_, ?_, slotType_eq hsound hscope hname,
    hsound.declaredType_eq hscope hname, hrefined name⟩
  · rw [Except.mapM_eq_ok_iff, List.forall₂_map_right_iff, List.forall₂_same]
    exact fun branch hbranch => contribution_eq hsound (hfits branch hbranch).scope hscope hname
  · exact (hmerges.joined name).again later (.refl later) hsettles.sound

def crossing : Forest :=
  (Forest.ofRoot .initial ⟨0⟩).after
    [.declare ⟨0⟩ (.spelled "x") ⟨none, some ⟨2⟩, none, false⟩, .addScope ⟨0⟩ ⟨1⟩ .block [] none,
      .addBottom ⟨2⟩]

/-- A branch that ends in the block, one that ends outside, and one that never ends. -/
def crossingBranches : List Flow :=
  [(entry 0 ⟨1⟩).refine 1 ⟨5⟩ ⟨0⟩, (entry 2 ⟨0⟩).refine 3 ⟨5⟩ ⟨1⟩, entry 4 ⟨2⟩]

theorem crossing_built : crossing.Built := ⟨⟨0⟩, _, rfl⟩

theorem crossing_typed : crossing.Typed TypeTable.basic := by
  have hvars : ∀ var ∈ crossing.vars, var.type = some ⟨2⟩ := by decide +kernel
  intro var hvar type htype
  rw [hvars var hvar] at htype
  cases htype
  decide

theorem crossing_interned : crossing.Interned ⟨5⟩ := by decide +kernel

theorem crossingBranches_scopes :
    ∀ flow ∈ crossingBranches, flow.scope.raw < crossing.scopes.size := by
  decide +kernel

theorem crossingBranches_reachable :
    crossingBranches.filter (isReachable crossing) = crossingBranches.take 2 := by
  decide +kernel

theorem crossingBranches_fit :
    ∀ flow ∈ crossingBranches.filter (isReachable crossing),
      flow.Fits crossing TypeTable.basic := by
  have hsize : crossing.scopes.size = 3 := by decide +kernel
  rw [crossingBranches_reachable]
  intro flow hflow
  simp only [crossingBranches, List.take, List.mem_cons, List.not_mem_nil, or_false] at hflow
  rcases hflow with rfl | rfl
  · exact (fits_entry 0 (by rw [hsize]; decide)).refine 1 crossing_interned (by decide)
  · exact (fits_entry 2 (by rw [hsize]; decide)).refine 3 crossing_interned (by decide)

theorem join_pointwise_of_crossing :
    let x : Name := ⟨5⟩
    2 ≤ (crossingBranches.filter (isReachable crossing)).length ∧
    ∃ result later, (join 5 crossing crossingBranches).run.run TypeTable.basic =
        (.ok result, later) ∧
      crossing.NearestAround [⟨1⟩, ⟨0⟩] result.scope ∧
      ∃ contributions joined declared,
        (crossingBranches.take 2).mapM (contribution crossing result.scope x) =
          .ok contributions ∧
        (contributions.foldlM joinSlots none : Attempt UnknownType TypeTable _).run.run later =
          (.ok joined, later) ∧
        result.slotType crossing x = .ok joined ∧
        crossing.declaredType result.scope x = .ok declared ∧
        (x ∈ result.slotNames ↔ joined ≠ declared) := by
  intro x
  have hseveral : 2 ≤ (crossingBranches.filter (isReachable crossing)).length := by
    rw [crossingBranches_reachable]
    decide
  obtain ⟨_, result, later, hrun, _, _, hnear, _, hpointwise⟩ :=
    join_pointwise crossing_built TypeTable.Built.basic crossing_typed crossingBranches_scopes
      hseveral crossingBranches_fit 5
  have hx := hpointwise x crossing_interned
  rw [crossingBranches_reachable] at hnear hx
  exact ⟨hseveral, result, later, hrun, hnear, hx⟩

end FlowTyping.Flow
