import FlowTyping.Proofs.Attempt
import FlowTyping.Proofs.Flow.Run
import FlowTyping.Proofs.Flow.Slots

/-!
# Flow scopes without layers

A flat flow scope is a scope and one map of refined types, copied whenever a flow scope is handed
on. Every operation on chains of layers does to the scope and the refinements of its chains what
the flat operation does to the pair, so a run on chains cannot be told from a run on pairs.
-/
namespace FlowTyping
open TypeLattice
variable {Λ : Type} [TypeLattice Λ]

/-- A declaration scope with the refined type of every name that has one. -/
structure Flat where
  scope : ScopeId
  slots : Slots

namespace Flat

def entry (scope : ScopeId) : Flat := ⟨scope, ∅⟩

def refine (flat : Flat) (name : Name) (type : TypeId) : Flat :=
  ⟨flat.scope, flat.slots.insert name type⟩

/-- A pair taken to another scope. The names that mean the same there keep their types. -/
def enter (flat : Flat) (forest : Forest) (scope : ScopeId) : Except Fault Flat := do
  return ⟨scope, ← flat.slots.retain (forest.sameBinding flat.scope scope)⟩

def slotNames (flat : Flat) : List Name := flat.slots.keys

def slotType (flat : Flat) (forest : Forest) (name : Name) : Except Fault (Option TypeId) :=
  match flat.slots[name]? with
  | some type => .ok (some type)
  | none => forest.declaredType flat.scope name

def live (forest : Forest) (flats : List Flat) : Except Fault (List Flat) :=
  List.flatten <$> flats.mapM fun flat => do
    return if ← forest.isBottom flat.scope then [] else [flat]

def around (forest : Forest) (scope : ScopeId) (flat : Flat) : Except Fault ScopeId := do
  match ← forest.commonAncestor scope flat.scope with
  | some common => return common
  | none => throw (.unrelatedScopes scope flat.scope)

/-- The joined type of a name over several pairs in one scope, unless it is the declared type. -/
def joinedEntry (forest : Forest) (scope : ScopeId) (flats : List Flat) (name : Name) :
    Attempt Fault Λ (Option (Name × TypeId)) := do
  let declared ← Attempt.answer (forest.declaredType scope name)
  let joined ← (flats.foldlM
    (fun joined flat => joinSlots joined (flat.slots[name]?.or declared)) none :
      Attempt UnknownType Λ (Option TypeId))
  return if sameSlots (← get) joined declared then none else joined.map (name, ·)

def merge (forest : Forest) (scope : ScopeId) (flats : List Flat) : Attempt Fault Λ Flat := do
  let names := (flats.foldl (fun slots flat => slots ∪ flat.slots) (∅ : Slots)).keys
  let entries ← names.mapM (joinedEntry forest scope flats)
  return ⟨scope, (entries.filterMap id).foldr (fun entry => (·.insert entry.1 entry.2)) ∅⟩

/-- The join of pairs: the first if all are unreachable, the only one that is reachable, or else
what the reachable ones have in common once all are taken to their common scope. -/
def join (forest : Forest) : List Flat → Attempt Fault Λ Flat
  | [] => throw .emptyJoin
  | first :: others => do
    match ← Attempt.answer (live forest (first :: others)) with
    | [] => return first
    | [only] => return only
    | flat :: flats => do
      let scope ← Attempt.answer (flats.foldlM (around forest) flat.scope)
      merge forest scope (← Attempt.answer ((flat :: flats).mapM (·.enter forest scope)))

end Flat

namespace Flow

/-- The pair that a chain of layers stands for. -/
def flat (flow : Flow) : Flat := ⟨flow.scope, flow.refinements⟩

/-- Refinements are known by their nearest entries. -/
theorem refinements_eq_iff {flow : Flow} {slots : Slots} :
    flow.refinements = slots ↔ ∀ name, flow.refinement? name = slots[name]? := by
  simp only [← getElem?_refinements]
  exact ⟨fun h name => h ▸ rfl, Std.ExtTreeMap.ext_getElem?⟩

theorem flat_push (flow : Flow) (stamp : Nat) (scope : ScopeId) :
    (flow.push stamp scope).flat = ⟨scope, flow.refinements⟩ := by
  have hslots : (flow.push stamp scope).refinements = flow.refinements :=
    refinements_eq_iff.mpr fun name => by rw [refinement?_push, getElem?_refinements]
  rw [flat, hslots, scope_push]

theorem flat_overEntry (stamp : Nat) (scope : ScopeId) (slots : Slots) :
    (overEntry stamp scope slots).flat = ⟨scope, slots⟩ :=
  congrArg (Flat.mk scope) (refinements_eq_iff.mpr (refinement?_overEntry stamp scope slots))

theorem flat_child (flow : Flow) (stamp : Nat) : (flow.child stamp).flat = flow.flat :=
  flat_push flow stamp flow.scope

theorem flat_refine (flow : Flow) (stamp : Nat) (name : Name) (type : TypeId) :
    (flow.refine stamp name type).flat = flow.flat.refine name type := by
  refine congrArg (Flat.mk flow.scope) (refinements_eq_iff.mpr fun other => ?_)
  rw [refinement?_refine, flat, Std.ExtTreeMap.getElem?_insert, getElem?_refinements]
  simp only [Std.compare_eq_iff_eq]

private theorem refinement?_mk (top : Layer) (below : List Layer) (name : Name) :
    (Flow.mk top below).refinement? name =
      top.slots[name]?.or (below.findSome? (·.slots[name]?)) := by
  rw [refinement?, layers, List.findSome?_cons]
  cases top.slots[name]? <;> rfl

private theorem refinement?_of_parent? {flow parent : Flow} (hparent : flow.parent? = some parent)
    (name : Name) :
    flow.refinement? name = flow.top.slots[name]?.or (parent.refinement? name) := by
  obtain ⟨top, below⟩ := flow
  cases below with
  | nil => cases hparent
  | cons layer layers =>
    obtain rfl := Option.some.inj hparent
    exact refinement?_mk top (layer :: layers) name

/-- A chain is its layers above the entry, and the entry. -/
theorem dropLast_append_base (flow : Flow) :
    flow.layers.dropLast ++ flow.base.layers = flow.layers := by
  have hlast : flow.base.layers = [flow.layers.getLast (List.cons_ne_nil _ _)] :=
    congrArg ([·]) (List.getLast_eq_getLastD _).symm
  rw [hlast]
  exact List.dropLast_concat_getLast _

private theorem overlay_or_base (flow : Flow) (name : Name) :
    (overlay ∅ flow.layers.dropLast)[name]?.or (flow.base.refinement? name) =
      flow.refinement? name := by
  rw [getElem?_overlay, Std.ExtTreeMap.getElem?_empty, Option.none_or, refinement?,
    ← List.findSome?_append, dropLast_append_base, refinement?]

theorem refinement?_compact (flow : Flow) (stamp : Nat) (name : Name) :
    (flow.compact stamp).refinement? name = flow.refinement? name := by
  unfold compact
  split
  · -- A chain that is short already loses its top layer at most, and only if that is empty.
    split
    next parent hparent =>
      split
      next hdrop =>
        have hempty := Std.ExtTreeMap.isEmpty_iff.mp (Bool.and_eq_true_iff.mp hdrop).1
        rw [refinement?_of_parent? hparent, hempty, Std.ExtTreeMap.getElem?_empty, Option.none_or]
      next => rfl
    next => rfl
  · have hchain := flow.overlay_or_base name
    dsimp only
    split
    next hdrop =>
      have hempty := Std.ExtTreeMap.isEmpty_iff.mp (Bool.and_eq_true_iff.mp hdrop).1
      rw [← hchain, hempty, Std.ExtTreeMap.getElem?_empty, Option.none_or]
    next => rw [← hchain, refinement?_mk, refinement?]

theorem flat_compact (flow : Flow) (stamp : Nat) : (flow.compact stamp).flat = flow.flat := by
  have hslots : (flow.compact stamp).refinements = flow.refinements :=
    refinements_eq_iff.mpr fun name => by rw [refinement?_compact, getElem?_refinements]
  rw [flat, scope_compact, hslots, flat]

/-- A change of scope keeps the refinements of the names that mean the same in both scopes. -/
theorem flat_enter (flow : Flow) (stamp : Nat) (forest : Forest) (scope : ScopeId) :
    flat <$> flow.enter stamp forest scope = flow.flat.enter forest scope := by
  unfold enter Flat.enter
  by_cases hsame : scope = flow.scope
  · subst hsame
    have hall : flow.refinements.retain (forest.sameBinding flow.scope flow.scope) =
        .ok flow.refinements := Slots.retain_of_forall fun name => Forest.sameBinding_self ..
    simp only [if_true, flat, hall]
    exact congrArg Except.ok (flat_push flow stamp flow.scope)
  · simp only [hsame, if_false, flat]
    cases hkept : flow.refinements.retain (forest.sameBinding flow.scope scope) with
    | error fault => rfl
    | ok kept =>
      -- The chain is handed on as it is if nothing was dropped, or else built anew.
      by_cases hsize : kept.size = flow.refinements.size
      · rw [Slots.eq_of_retain_of_size hkept hsize]
        simp only [bind, Except.bind, if_true]
        exact congrArg Except.ok (flat_push flow stamp scope)
      · simp only [bind, Except.bind, hsize, if_false]
        exact congrArg Except.ok (flat_overEntry stamp scope kept)

theorem flat_live (forest : Forest) (flows : List Flow) :
    List.map flat <$> live forest flows = Flat.live forest (flows.map flat) := by
  induction flows with
  | nil => rfl
  | cons flow flows ih =>
    have hcons : Flat.live forest (flow.flat :: flows.map flat) = do
        let bottom ← forest.isBottom flow.scope
        let rest ← Flat.live forest (flows.map flat)
        return if bottom then rest else flow.flat :: rest := by
      simp only [Flat.live, List.mapM_cons, map_eq_pure_bind, bind_assoc, pure_bind]
      refine bind_congr fun bottom => bind_congr fun rest => ?_
      cases bottom <;> rfl
    rw [List.map_cons, hcons, ← ih, live]
    simp only [isBottom, map_eq_pure_bind, bind_assoc, pure_bind]
    refine bind_congr fun bottom => bind_congr fun rest => ?_
    cases bottom <;> rfl

theorem scopeAround_eq_foldlM (forest : Forest) (scope : ScopeId) (flows : List Flow) :
    scopeAround forest scope flows = (flows.map flat).foldlM (Flat.around forest) scope := by
  induction flows generalizing scope with
  | nil => rfl
  | cons flow flows ih =>
    rw [scopeAround, List.map_cons, List.foldlM_cons, Flat.around, flat, bind_assoc]
    refine bind_congr fun common => ?_
    cases common with
    | none => rfl
    | some common => exact ih common

theorem flat_refinementsIn (flow : Flow) (forest : Forest) (scope : ScopeId) :
    Flat.mk scope <$> flow.refinementsIn forest scope = flow.flat.enter forest scope :=
  map_eq_pure_bind _ _

theorem flat_mapM_refinementsIn (flows : List Flow) (forest : Forest) (scope : ScopeId) :
    List.map (Flat.mk scope) <$> flows.mapM (·.refinementsIn forest scope) =
      (flows.map flat).mapM (·.enter forest scope) := by
  induction flows with
  | nil => rfl
  | cons flow flows ih =>
    rw [List.map_cons, List.mapM_cons, List.mapM_cons, ← ih, ← flat_refinementsIn]
    simp only [map_eq_pure_bind, bind_assoc, pure_bind, List.map_cons]

/-- The entries that a merge keeps are those that a join of branches keeps. -/
theorem joinedSlots_eq_mapM (forest : Forest) (scope : ScopeId) (branches : List Slots)
    (names : List Name) :
    (joinedSlots forest scope branches names : Attempt Fault Λ Slots) = do
      let entries ← names.mapM (Flat.joinedEntry forest scope (branches.map (Flat.mk scope)))
      return (entries.filterMap id).foldr (fun entry => (·.insert entry.1 entry.2)) ∅ := by
  induction names with
  | nil => rfl
  | cons name names ih =>
    rw [joinedSlots, ih, List.mapM_cons]
    simp only [Flat.joinedEntry, joinedType, List.foldlM_map, bind_assoc, pure_bind]
    refine bind_congr fun declared => bind_congr fun joined => bind_congr fun types =>
      bind_congr fun entries => ?_
    cases joined with
    | none => cases sameSlots types none declared <;> rfl
    | some type => cases sameSlots types (some type) declared <;> rfl

theorem merge_map_mk (forest : Forest) (scope : ScopeId) (branches : List Slots) :
    (Flat.merge forest scope (branches.map (Flat.mk scope)) : Attempt Fault Λ Flat) =
      Flat.mk scope <$>
        joinedSlots forest scope branches (branches.foldl (· ∪ ·) (∅ : Slots)).keys := by
  rw [Flat.merge, joinedSlots_eq_mapM, List.foldl_map]
  simp only [map_eq_pure_bind, bind_assoc, pure_bind]

/-- A join of chains does to their pairs what the join of pairs does. -/
theorem flat_join (stamp : Nat) (forest : Forest) (flows : List Flow) :
    flat <$> (join stamp forest flows : Attempt Fault Λ Flow) =
      Flat.join forest (flows.map flat) := by
  cases flows with
  | nil => rfl
  | cons first flows =>
    rw [join, List.map_cons, Flat.join, ← List.map_cons, ← flat_live, Attempt.answer_map]
    cases hlive : live forest (first :: flows) with
    | error fault => rfl
    | ok reachable =>
      match reachable with
      | [] => rfl
      | [only] => rfl
      | flow :: flow' :: others =>
        rw [Attempt.answer_ok, map_pure, pure_bind, pure_bind, map_bind]
        change (_ : Attempt Fault Λ Flat) = (do
          let scope ← Attempt.answer
            (((flow' :: others).map flat).foldlM (Flat.around forest) flow.scope)
          Flat.merge forest scope
            (← Attempt.answer (((flow :: flow' :: others).map flat).mapM (·.enter forest scope))))
        rw [← scopeAround_eq_foldlM]
        refine bind_congr fun scope => ?_
        rw [← flat_mapM_refinementsIn, Attempt.answer_map, map_bind, bind_map_left]
        refine bind_congr fun branches => ?_
        rw [merge_map_mk, map_bind, map_eq_pure_bind]
        refine bind_congr fun slots => ?_
        rw [map_pure, flat_overEntry]

end Flow

abbrev FlatStore := Std.ExtTreeMap String Flat

namespace FlatStore

def find (flats : FlatStore) (key : String) : Except Fault Flat :=
  match flats[key]? with
  | some flat => .ok flat
  | none => .error (.unknownFlow key)

/-- The pair that a step makes. A pair is its own child, copy and short form. -/
def result (forest : Forest) (flats : FlatStore) : FlowStep → Attempt Fault Λ Flat
  | .entry scope _ => return .entry scope
  | .child flat _ | .copy flat _ | .compact flat _ => .answer (flats.find flat)
  | .enter flat scope _ => .answer do (← flats.find flat).enter forest scope
  | .refine flat name type => .answer do return (← flats.find flat).refine name type
  | .join keys _ => do Flat.join forest (← Attempt.answer (keys.mapM flats.find))

def advance (forest : Forest) (flats : FlatStore) (step : FlowStep) : Attempt Fault Λ FlatStore :=
  flats.insert step.target <$> flats.result forest step

def after (forest : Forest) (state : FlatStore × Λ) (steps : List FlowStep) : FlatStore × Λ :=
  trySteps (advance forest) state steps

end FlatStore

namespace FlowStore

def flats (store : FlowStore) : FlatStore := store.flows.map fun _ => Flow.flat

theorem getElem?_flats (store : FlowStore) (key : String) :
    store.flats[key]? = store.flows[key]?.map Flow.flat :=
  Std.ExtTreeMap.getElem?_map

theorem flat_find (store : FlowStore) (key : String) :
    Flow.flat <$> store.find key = store.flats.find key := by
  rw [find, FlatStore.find, getElem?_flats]
  cases store.flows[key]? <;> rfl

theorem flat_mapM_find (store : FlowStore) (keys : List String) :
    List.map Flow.flat <$> keys.mapM store.find = keys.mapM store.flats.find := by
  induction keys with
  | nil => rfl
  | cons key keys ih =>
    rw [List.mapM_cons, List.mapM_cons, ← ih, ← flat_find]
    simp only [map_eq_pure_bind, bind_assoc, pure_bind, List.map_cons]

theorem flat_result (store : FlowStore) (forest : Forest) (step : FlowStep) :
    Flow.flat <$> (store.result forest step : Attempt Fault Λ Flow) =
      store.flats.result forest step := by
  cases step with
  | entry scope target => rfl
  | child key target =>
    rw [result, FlatStore.result, ← flat_find, ← Attempt.answer_map]
    cases store.find key with
    | error fault => rfl
    | ok flow => exact congrArg (fun flat => Attempt.answer (.ok flat)) (flow.flat_child _)
  | enter key scope target =>
    rw [result, FlatStore.result, ← flat_find, ← Attempt.answer_map, map_bind, bind_map_left]
    exact congrArg Attempt.answer (bind_congr fun flow => flow.flat_enter _ forest scope)
  | copy key target =>
    rw [result, FlatStore.result, ← flat_find, ← Attempt.answer_map]
  | compact key target =>
    rw [result, FlatStore.result, ← flat_find, ← Attempt.answer_map]
    cases store.find key with
    | error fault => rfl
    | ok flow => exact congrArg (fun flat => Attempt.answer (.ok flat)) (flow.flat_compact _)
  | refine key name type =>
    rw [result, FlatStore.result, ← flat_find, ← Attempt.answer_map]
    cases store.find key with
    | error fault => rfl
    | ok flow => exact congrArg (fun flat => Attempt.answer (.ok flat)) (flow.flat_refine _ name type)
  | join keys target =>
    rw [result, FlatStore.result, ← flat_mapM_find, map_bind, Attempt.answer_map, bind_map_left]
    exact bind_congr fun flows => Flow.flat_join store.nextStamp forest flows

theorem flats_advance (forest : Forest) (store : FlowStore) (step : FlowStep) :
    flats <$> (store.advance forest step : Attempt Fault Λ FlowStore) =
      store.flats.advance forest step := by
  have hput : ∀ flow : Flow, (store.put step.target flow).flats =
      store.flats.insert step.target flow.flat := by
    intro flow
    apply Std.ExtTreeMap.ext_getElem?
    intro key
    rw [getElem?_flats, put, Std.ExtTreeMap.getElem?_insert, Std.ExtTreeMap.getElem?_insert,
      getElem?_flats]
    split <;> rfl
  rw [advance, perform, FlatStore.advance, ← flat_result]
  simp only [map_eq_pure_bind, bind_assoc, pure_bind, hput]

end FlowStore

/-- What can be read of a chain is what can be read of a pair. -/
structure Flow.ReadsAs (forest : Forest) (flow : Flow) (flat : Flat) : Prop where
  scope : flow.scope = flat.scope
  slotNames : flow.slotNames = flat.slotNames
  refinement : ∀ name, flow.refinement? name = flat.slots[name]?
  slotType : ∀ name, flow.slotType forest name = flat.slotType forest name

theorem Flow.readsAs_flat (forest : Forest) (flow : Flow) : flow.ReadsAs forest flow.flat := by
  have hslots := flow.getElem?_refinements
  refine ⟨rfl, rfl, fun name => (hslots name).symm, fun name => ?_⟩
  cases hrefined : flow.refinement? name with
  | none => simp only [slotType, Flat.slotType, flat, hslots, hrefined]
  | some type => simp only [slotType, Flat.slotType, flat, hslots, hrefined]

/-- After any steps, each key holds a chain of layers and a pair that read the same, and the
lattice has grown the same way, although the pairs share nothing and keep no layers. -/
theorem after_readsAs_flat (forest : Forest) (types : Λ) (steps : List FlowStep) :
    let chains := FlowStore.after forest (.empty, types) steps
    let pairs := FlatStore.after forest (∅, types) steps
    chains.2 = pairs.2 ∧
      ∀ key : String, Option.Rel (Flow.ReadsAs forest) chains.1.flows[key]? pairs.1[key]? := by
  have hstart : FlowStore.empty.flats = ∅ := by
    apply Std.ExtTreeMap.ext_getElem?
    intro key
    rw [FlowStore.getElem?_flats]
    rfl
  have hrun := trySteps_view FlowStore.flats (FlowStore.flats_advance forest) steps
    (FlowStore.empty, types)
  rw [hstart] at hrun
  intro chains pairs
  have hpairs : pairs = (chains.1.flats, chains.2) := hrun
  rw [hpairs]
  refine ⟨rfl, fun key => ?_⟩
  rw [FlowStore.getElem?_flats]
  cases chains.1.flows[key]? with
  | none => exact .none
  | some flow => exact .some (flow.readsAs_flat forest)

end FlowTyping
