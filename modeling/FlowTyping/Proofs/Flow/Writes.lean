import FlowTyping.Proofs.Flow.Branches
import FlowTyping.Proofs.Flow.Flat
import FlowTyping.Proofs.Forest.Meaning
import FlowTyping.TypeLattice.Structural

/-!
# Where refinements come from

Beside a store runs a record of the writes behind each refinement of each flow scope. It follows the
types: what takes over a refinement takes over its writes, a write replaces the writes of its name,
and a join collects those of the branches whose refinement it looks at. Nothing goes into a refined
type but what the record has and the declared type. No step ever brings a refinement to a scope where
its name means another variable than it meant when it was written.
-/
namespace FlowTyping
open Attempt
variable {Λ : Type} [TypeLattice Λ]

structure Write where
  scope : ScopeId
  name : Name
  type : TypeId

def Write.target (write : Write) (forest : Forest) : Except Fault (Option Variable) :=
  forest.resolve write.scope write.name

/-- A store, and the writes behind the refinements of each flow scope in it. -/
structure Traced where
  store : FlowStore
  writes : String → Name → List Write

namespace Traced

def empty : Traced := ⟨.empty, fun _ _ => []⟩

def passes (traced : Traced) (test : Flow → Bool) (key : String) : Bool :=
  traced.store.flows[key]?.any test

/-- The branches that a join looks at for a name: those that count and refine the name as it is
seen from the scope of the join. -/
def sources (traced : Traced) (forest : Forest) (keys : List String) (made : Flow) (name : Name) :
    List String :=
  (Flow.branchesOf (traced.passes (Flow.isReachable forest)) keys).filter
    (traced.passes fun flow => flow.refinesIn forest made.scope name)

/-- The writes behind the refinements of the flow scope that a step has made. -/
def writesOf (traced : Traced) (forest : Forest) (made : Flow) : FlowStep → Name → List Write
  | .entry _ _ => fun _ => []
  | .child key _ | .enter key _ _ | .copy key _ | .compact key _ => traced.writes key
  | .refine key name type =>
    Function.update (traced.writes key) name [⟨made.scope, name, type⟩]
  | .join keys _ => fun name =>
    (traced.sources forest keys made name).flatMap fun key => traced.writes key name

def advance (forest : Forest) (traced : Traced) (step : FlowStep) : Attempt Fault Λ Traced := do
  let (made, store) ← traced.store.perform forest step
  return ⟨store, Function.update traced.writes step.target (traced.writesOf forest made step)⟩

def after (forest : Forest) (state : Traced × Λ) (steps : List FlowStep) : Traced × Λ :=
  trySteps (advance forest) state steps

theorem store_advance (forest : Forest) (traced : Traced) (step : FlowStep) :
    store <$> (traced.advance forest step : Attempt Fault Λ Traced) =
      traced.store.advance forest step := by
  simp only [advance, FlowStore.advance, map_eq_pure_bind, bind_assoc, pure_bind]

/-- The record does not change what happens in the store. -/
theorem store_after (forest : Forest) (types : Λ) (steps : List FlowStep) :
    FlowStore.after forest (.empty, types) steps =
      ((after forest (empty, types) steps).1.store, (after forest (empty, types) steps).2) :=
  trySteps_view store (store_advance forest) steps (empty, types)

end Traced

/-- A type that was written, or the declared type of what a name means in a flow scope. -/
def Flow.Grounds (flow : Flow) (forest : Forest) (name : Name) (writes : List Write)
    (type : TypeId) : Prop :=
  (∃ write ∈ writes, write.type = type) ∨ forest.declaredType flow.scope name = .ok (some type)

/-- There are writes behind a refinement, all are about the variable that its name means, and joins
have made its type of what was written and of the declared type. -/
structure Flow.Rests (Λ : Type) [TypeLattice Λ] (flow : Flow) (forest : Forest) (name : Name)
    (writes : List Write) : Prop where
  written : writes ≠ []
  about : ∀ write ∈ writes, write.name = name ∧ write.target forest = forest.resolve flow.scope name
  joined : ∀ type ∈ flow.refinement? name, Flow.Joined Λ (flow.Grounds forest name writes) type

def Traced.Sound (Λ : Type) [TypeLattice Λ] (traced : Traced) (forest : Forest) : Prop :=
  ∀ (key : String) (flow : Flow), traced.store.flows[key]? = some flow →
    ∀ name ∈ flow.slotNames, flow.Rests Λ forest name (traced.writes key name)

variable {forest : Forest} {traced : Traced}

theorem Flow.Joined.grow {flow made : Flow} {name : Name} {writes more : List Write} {type : TypeId}
    (hjoined : Flow.Joined Λ (flow.Grounds forest name writes) type)
    (hmeaning : forest.resolve flow.scope name = forest.resolve made.scope name)
    (hmore : ∀ write ∈ writes, write ∈ more) :
    Flow.Joined Λ (made.Grounds forest name more) type := by
  refine hjoined.trans fun type hground => .given ?_
  rcases hground with ⟨write, hwrite, htype⟩ | hdeclared
  · exact .inl ⟨write, hmore write hwrite, htype⟩
  · rw [Forest.declaredType, hmeaning] at hdeclared
    exact .inr hdeclared

/-- Writes are carried along with a refinement if its name keeps its meaning. -/
theorem Flow.Rests.carry {flow made : Flow} {name : Name} {writes : List Write}
    (hrests : flow.Rests Λ forest name writes)
    (hmeaning : forest.resolve flow.scope name = forest.resolve made.scope name)
    (hkept : ∀ type ∈ made.refinement? name, type ∈ flow.refinement? name) :
    made.Rests Λ forest name writes := by
  refine ⟨hrests.written, fun write hwrite => ?_, fun type htype => ?_⟩
  · rw [← hmeaning]
    exact hrests.about write hwrite
  · exact (hrests.joined type (hkept type htype)).grow hmeaning fun _ hwrite => hwrite

/-- A chain that stands for the same pair rests on the same writes. -/
theorem Traced.Sound.rests_of_flat (hsound : traced.Sound Λ forest) {key : String}
    {flow made : Flow} (hflow : traced.store.flows[key]? = some flow)
    (hflat : made.flat = flow.flat) {name : Name} (hname : name ∈ made.slotNames) :
    made.Rests Λ forest name (traced.writes key name) := by
  have hscope : made.scope = flow.scope := congrArg Flat.scope hflat
  have hslots : made.refinements = flow.refinements := congrArg Flat.slots hflat
  have hnames : made.slotNames = flow.slotNames := congrArg Flat.slotNames hflat
  rw [hnames] at hname
  refine (hsound key flow hflow name hname).carry (by rw [hscope]) fun type htype => ?_
  rwa [← Flow.getElem?_refinements, ← hslots, Flow.getElem?_refinements]

/-- What a change of scope keeps means the same on both sides. -/
theorem Flow.of_refinementsIn {flow : Flow} (hforest : forest.Sound) {scope : ScopeId}
    {slots : Slots} (hslots : flow.refinementsIn forest scope = .ok slots) {name : Name}
    {type : TypeId} (htype : slots[name]? = some type) :
    flow.refinement? name = some type ∧
      forest.resolve flow.scope name = forest.resolve scope name := by
  obtain ⟨hrefined, hsame⟩ := (Slots.getElem?_retain hslots).mp htype
  rw [getElem?_refinements] at hrefined
  exact ⟨hrefined, hforest.resolve_eq_of_sameBinding hsame⟩

theorem Flow.flat_of_enter {flow made : Flow} {stamp : Nat} {scope : ScopeId}
    (hmade : flow.enter stamp forest scope = .ok made) :
    ∃ slots, flow.refinementsIn forest scope = .ok slots ∧ made.flat = ⟨scope, slots⟩ := by
  have hflat := flow.flat_enter stamp forest scope
  rw [hmade, ← flat_refinementsIn] at hflat
  cases hslots : flow.refinementsIn forest scope with
  | error fault =>
    rw [hslots] at hflat
    cases hflat
  | ok slots =>
    rw [hslots] at hflat
    exact ⟨slots, rfl, Except.ok.inj hflat⟩

/-- What is refined after a change of scope was refined before it, and means the same. -/
theorem Flow.of_enter {flow made : Flow} (hforest : forest.Sound) {stamp : Nat}
    {scope : ScopeId} (hmade : flow.enter stamp forest scope = .ok made) {name : Name}
    {type : TypeId} (htype : made.refinement? name = some type) :
    flow.refinement? name = some type ∧
      forest.resolve flow.scope name = forest.resolve made.scope name := by
  obtain ⟨slots, hslots, hflat⟩ := flat_of_enter hmade
  have hkept : made.refinements = slots := congrArg Flat.slots hflat
  have hscope : made.scope = scope := congrArg Flat.scope hflat
  rw [← getElem?_refinements, hkept] at htype
  rw [hscope]
  exact of_refinementsIn hforest hslots htype

theorem Flow.of_mem_enter {flow made : Flow} (hforest : forest.Sound) {stamp : Nat}
    {scope : ScopeId} (hmade : flow.enter stamp forest scope = .ok made) {name : Name}
    (hname : name ∈ made.slotNames) :
    name ∈ flow.slotNames ∧ forest.resolve flow.scope name = forest.resolve made.scope name := by
  obtain ⟨type, htype⟩ := Option.isSome_iff_exists.mp (mem_slotNames.mp hname)
  obtain ⟨hrefined, hmeaning⟩ := of_enter hforest hmade htype
  exact ⟨mem_slotNames_of_some hrefined, hmeaning⟩

theorem Traced.passes_eq_true {test : Flow → Bool} {key : String} :
    traced.passes test key = true ↔
      ∃ flow, traced.store.flows[key]? = some flow ∧ test flow = true := by
  rw [Traced.passes]
  cases traced.store.flows[key]? <;> simp

/-- The branches that count and refine a name, as it is seen from the scope of the join, are under
the keys that the record names. -/
theorem Traced.exists_source {keys : List String} {flows : List Flow} {made branch : Flow}
    (hfind : keys.mapM traced.store.find = .ok flows)
    (hbranch : branch ∈ Flow.branchesOf (Flow.isReachable forest) flows) {name : Name}
    (hrefines : branch.refinesIn forest made.scope name = true) :
    ∃ key ∈ traced.sources forest keys made name, traced.store.find key = .ok branch := by
  have htest : ∀ (test : Flow → Bool) key flow, traced.store.find key = .ok flow →
      traced.passes test key = test flow := by
    intro test key flow hflow
    rw [Traced.passes, FlowStore.find_eq_ok_iff.mp hflow, Option.any_some]
  have hbranches := Flow.mapM_branchesOf hfind (htest (Flow.isReachable forest))
  obtain ⟨key, hkey, hget⟩ := (Except.mem_of_mapM hbranches branch).mp hbranch
  exact ⟨key, List.mem_filter.mpr ⟨hkey, (htest _ key branch hget).trans hrefines⟩, hget⟩

/-- The writes of the branches that a join looks at are about what the joined name means, and the
joined type comes from them and from the declared type. -/
theorem Traced.Sound.rests_join (hforest : forest.Sound) (hsound : traced.Sound Λ forest)
    {keys : List String} {flows : List Flow} {stamp : Nat} {types later : Λ} {made : Flow}
    (hfind : keys.mapM traced.store.find = .ok flows)
    (hrun : (Flow.join stamp forest flows).run.run types = (.ok made, later)) {name : Name}
    (hname : name ∈ made.slotNames) :
    made.Rests Λ forest name
      ((traced.sources forest keys made name).flatMap fun key => traced.writes key name) := by
  have hrests : ∀ key ∈ traced.sources forest keys made name, ∃ flow : Flow,
      flow.Rests Λ forest name (traced.writes key name) ∧
        forest.resolve flow.scope name = forest.resolve made.scope name := by
    intro key hkey
    obtain ⟨flow, hflow, hrefines⟩ := Traced.passes_eq_true.mp (List.mem_filter.mp hkey).2
    obtain ⟨slots, hslots, hmem⟩ := Flow.refinesIn_eq_true.mp hrefines
    obtain ⟨type, htype⟩ := Option.isSome_iff_exists.mp
      (Std.ExtTreeMap.mem_iff_isSome_getElem?.mp hmem)
    obtain ⟨hrefined, hmeaning⟩ := Flow.of_refinementsIn hforest hslots htype
    have hname := Flow.mem_slotNames_of_some hrefined
    exact ⟨flow, hsound key flow hflow name hname, hmeaning⟩
  refine ⟨?_, fun write hwrite => ?_, fun type htype => ?_⟩
  · -- Without a source the record would be empty, and say nothing about the joined slot.
    obtain ⟨branch, hbranch, hrefines⟩ := Flow.exists_branch_of_join hrun hname
    obtain ⟨key, hkey, _⟩ := Traced.exists_source hfind hbranch hrefines
    obtain ⟨_, hflow, _⟩ := hrests key hkey
    exact fun hnil => hflow.written (List.flatMap_eq_nil_iff.mp hnil key hkey)
  · obtain ⟨key, hkey, hwrite⟩ := List.mem_flatMap.mp hwrite
    obtain ⟨_, hflow, hmeaning⟩ := hrests key hkey
    rw [← hmeaning]
    exact hflow.about write hwrite
  · -- What the join takes from a branch is itself made of the writes of that branch.
    refine (Flow.joined_of_join hrun htype).trans fun given hgiven => ?_
    rcases hgiven with ⟨branch, hbranch, slots, hslots, hgiven⟩ | hdeclared
    · have hmem : name ∈ slots := Std.ExtTreeMap.mem_iff_isSome_getElem?.mpr (by rw [hgiven]; rfl)
      obtain ⟨key, hkey, hfound⟩ := Traced.exists_source hfind hbranch
        (Flow.refinesIn_eq_true.mpr ⟨slots, hslots, hmem⟩)
      obtain ⟨hrefined, hmeaning⟩ := Flow.of_refinementsIn hforest hslots hgiven
      have hflow := hsound key branch (FlowStore.find_eq_ok_iff.mp hfound) name
        (Flow.mem_slotNames_of_some hrefined)
      exact (hflow.joined given hrefined).grow hmeaning fun write hwrite =>
        List.mem_flatMap.mpr ⟨key, hkey, hwrite⟩
    · exact .given (.inr hdeclared)

theorem Traced.Sound.rests_result (hforest : forest.Sound) (hsound : traced.Sound Λ forest)
    {step : FlowStep} {types later : Λ} {made : Flow}
    (hrun : (traced.store.result forest step).run.run types = (.ok made, later)) {name : Name}
    (hname : name ∈ made.slotNames) :
    made.Rests Λ forest name (traced.writesOf forest made step name) := by
  cases step with
  | entry scope target =>
    rw [FlowStore.result, run_pure_eq_ok_iff] at hrun
    rw [← hrun.1, Flow.mem_slotNames, Flow.refinement?_entry] at hname
    cases hname
  | child key target =>
    obtain ⟨flow, hflow, hmade⟩ := Except.bind_eq_ok_iff.mp (run_answer_eq_ok_iff.mp hrun).1
    have hflat : made.flat = flow.flat := by
      rw [← Except.ok.inj hmade, Flow.flat_child]
    exact hsound.rests_of_flat (FlowStore.find_eq_ok_iff.mp hflow) hflat hname
  | enter key scope target =>
    obtain ⟨flow, hflow, hmade⟩ := Except.bind_eq_ok_iff.mp (run_answer_eq_ok_iff.mp hrun).1
    obtain ⟨hrefined, hmeaning⟩ := Flow.of_mem_enter hforest hmade hname
    exact (hsound key flow (FlowStore.find_eq_ok_iff.mp hflow) name hrefined).carry hmeaning
      fun type htype => (Flow.of_enter hforest hmade htype).1
  | copy key target =>
    have hflow := FlowStore.find_eq_ok_iff.mp (run_answer_eq_ok_iff.mp hrun).1
    exact hsound key made hflow name hname
  | compact key target =>
    obtain ⟨flow, hflow, hmade⟩ := Except.bind_eq_ok_iff.mp (run_answer_eq_ok_iff.mp hrun).1
    have hflat : made.flat = flow.flat := by
      rw [← Except.ok.inj hmade, Flow.flat_compact]
    exact hsound.rests_of_flat (FlowStore.find_eq_ok_iff.mp hflow) hflat hname
  | refine key written type =>
    obtain ⟨flow, hflow, hmade⟩ := Except.bind_eq_ok_iff.mp (run_answer_eq_ok_iff.mp hrun).1
    have hmade := Except.ok.inj hmade
    change made.Rests Λ forest name (Function.update (traced.writes key) written _ name)
    by_cases hsame : name = written
    · rw [hsame, Function.update_self]
      refine ⟨List.cons_ne_nil _ _, fun write hwrite => ?_, fun given hgiven => .given ?_⟩
      · rw [List.mem_singleton.mp hwrite]
        exact ⟨rfl, rfl⟩
      · rw [← hmade, Flow.refinement?_refine, if_pos rfl] at hgiven
        exact .inl ⟨_, List.mem_singleton_self _, Option.some.inj hgiven⟩
    · rw [Function.update_of_ne hsame]
      have hkept : made.refinement? name = flow.refinement? name := by
        rw [← hmade, Flow.refinement?_refine, if_neg fun heq => hsame heq.symm]
      have hrefined : name ∈ flow.slotNames := by
        rw [Flow.mem_slotNames, hkept] at hname
        exact Flow.mem_slotNames.mpr hname
      refine (hsound key flow (FlowStore.find_eq_ok_iff.mp hflow) name hrefined).carry ?_ ?_
      · rw [← hmade, Flow.scope_refine]
      · rw [hkept]
        exact fun type htype => htype
  | join keys target =>
    obtain ⟨flows, between, hfind, hrun⟩ := run_bind_eq_ok_iff.mp hrun
    exact hsound.rests_join hforest (run_answer_eq_ok_iff.mp hfind).1 hrun hname

theorem Traced.Sound.advance (hforest : forest.Sound) {after : Traced} {step : FlowStep}
    {types later : Λ} (hsound : traced.Sound Λ forest)
    (hrun : (traced.advance forest step).run.run types = (.ok after, later)) :
    after.Sound Λ forest := by
  obtain ⟨⟨_, _⟩, between, hperform, hrun⟩ := run_bind_eq_ok_iff.mp hrun
  obtain ⟨made, _, hresult, hput⟩ := run_bind_eq_ok_iff.mp hperform
  obtain ⟨rfl, rfl⟩ := Prod.mk.inj (run_pure_eq_ok_iff.mp hput).1
  rw [← (run_pure_eq_ok_iff.mp hrun).1]
  intro key flow hflow name hname
  change (traced.store.flows.insert step.target made)[key]? = some flow at hflow
  rw [Std.ExtTreeMap.getElem?_insert] at hflow
  by_cases hkey : key = step.target
  · subst hkey
    rw [if_pos Std.ReflCmp.compare_self] at hflow
    obtain rfl := Option.some.inj hflow
    dsimp only
    rw [Function.update_self]
    exact hsound.rests_result hforest hresult hname
  · rw [if_neg fun heq => hkey (Std.LawfulEqCmp.eq_of_compare heq).symm] at hflow
    dsimp only
    rw [Function.update_of_ne hkey]
    exact hsound key flow hflow name hname

theorem Traced.sound_after (hbuilt : forest.Built) (types : Λ) (steps : List FlowStep) :
    (Traced.after forest (.empty, types) steps).1.Sound Λ forest := by
  have hkeep : ∀ (traced : Traced) step (types : Λ) after later, traced.Sound Λ forest →
      (traced.advance forest step).run.run types = (.ok after, later) → after.Sound Λ forest := by
    intro traced step types after later hsound hrun
    exact hsound.advance hbuilt.sound hrun
  refine trySteps_invariant hkeep steps (Traced.empty, types) fun key flow hflow => ?_
  simp [Traced.empty, FlowStore.empty] at hflow

/-- Nothing but the recorded writes and the declared type has gone into a refinement: its type is
made of them by joins. -/
theorem joined_of_writes (hbuilt : forest.Built) (types : Λ) (steps : List FlowStep)
    {key : String} {flow : Flow} {name : Name} {type : TypeId}
    (hflow : (FlowStore.after forest (.empty, types) steps).1.flows[key]? = some flow)
    (htype : flow.refinement? name = some type) :
    let writes := (Traced.after forest (.empty, types) steps).1.writes key name
    Flow.Joined Λ (fun given => (∃ write ∈ writes, write.type = given) ∨
      forest.declaredType flow.scope name = .ok (some given)) type := by
  rw [Traced.store_after] at hflow
  have hname := Flow.mem_slotNames_of_some htype
  exact (Traced.sound_after hbuilt types steps key flow hflow name hname).joined type htype

/-- However a store was made, a refined name means in the scope of its flow scope the variable that
it meant wherever one of the types behind its refinement was written. -/
theorem writes_target_refined (hbuilt : forest.Built) (types : Λ) (steps : List FlowStep)
    {key : String} {flow : Flow} {name : Name}
    (hflow : (FlowStore.after forest (.empty, types) steps).1.flows[key]? = some flow)
    (hname : name ∈ flow.slotNames) :
    let writes := (Traced.after forest (.empty, types) steps).1.writes key name
    writes ≠ [] ∧ ∀ write ∈ writes,
      write.name = name ∧ write.target forest = forest.resolve flow.scope name := by
  rw [Traced.store_after] at hflow
  have hrests := Traced.sound_after hbuilt types steps key flow hflow name hname
  exact ⟨hrests.written, hrests.about⟩

private def shadowing : List Edit :=
  [.declare ⟨0⟩ (.spelled "x") ⟨none, none, none, false⟩, .addScope ⟨0⟩ ⟨1⟩ .block [] none,
    .declare ⟨1⟩ (.spelled "x") ⟨none, none, none, false⟩]

/-- Both variables are refined, one on either branch, and the branches meet outside the block. -/
private def meeting : List FlowStep :=
  [.entry ⟨1⟩ "inner", .refine "inner" ⟨5⟩ ⟨0⟩, .enter "inner" ⟨0⟩ "outer", .refine "outer" ⟨5⟩ ⟨1⟩,
    .join ["inner", "outer"] "after"]

theorem writes_target_refined_of_shadowing :
    let forest := (Forest.ofRoot .initial ⟨0⟩).after shadowing
    let x : Name := ⟨5⟩
    ∃ flow, (FlowStore.after forest (.empty, TypeTable.basic) meeting).1.flows["after"]? =
        some flow ∧ x ∈ flow.slotNames ∧
      let writes := (Traced.after forest (.empty, TypeTable.basic) meeting).1.writes "after" x
      writes ≠ [] ∧ ∀ write ∈ writes,
        write.name = x ∧ write.target forest = forest.resolve flow.scope x := by
  intro forest x
  have hrefined : (FlowStore.after forest (.empty, TypeTable.basic) meeting).1.flows["after"]?.any
      (fun flow => x ∈ flow.slotNames) = true := by decide +kernel
  obtain ⟨flow, hflow, hmem⟩ := (Option.any_eq_true _ _).mp hrefined
  simp only [decide_eq_true_eq] at hmem
  have hbuilt : forest.Built := ⟨⟨0⟩, shadowing, rfl⟩
  exact ⟨flow, hflow, hmem, writes_target_refined hbuilt TypeTable.basic meeting hflow hmem⟩

-- The inner variable is dropped on the way out, so the joined type comes from the outer write alone.
example :
    let forest := (Forest.ofRoot .initial ⟨0⟩).after shadowing
    let traced := (Traced.after forest (.empty, TypeTable.basic) meeting).1
    (traced.writes "after" ⟨5⟩).map (fun write => (write.scope, write.name, write.type)) =
      [(⟨0⟩, ⟨5⟩, ⟨1⟩)] := by
  decide +kernel

end FlowTyping
