import FlowTyping.Proofs.Flow.Branches
import FlowTyping.Proofs.Forest.Meaning
import FlowTyping.Proofs.TypeTable.Settled

/-!
# Flow scopes as they are seen

Where scopes exist, names are spelled and types are known, every question to a flow scope has an
answer. Seen from another scope, a flow scope gives its own type for the names that mean the same
there, and the declared type for all others.
-/
namespace FlowTyping

def Forest.Typed (forest : Forest) (table : TypeTable) : Prop :=
  ∀ var ∈ forest.vars, table.Holds var.type

/-- The declared type of a name; none also where that cannot be told. -/
def Forest.declared? (forest : Forest) (id : ScopeId) (name : Name) : Option TypeId :=
  (forest.meaning? id name).bind (·.type)

namespace Flow

structure Placed (flow : Flow) (forest : Forest) : Prop where
  scope : flow.scope.raw < forest.scopes.size
  names : ∀ name ∈ flow.slotNames, forest.Interned name

/-- A flow scope in a forest, with spelled names and known types. -/
structure Fits (flow : Flow) (forest : Forest) (table : TypeTable) : Prop where
  scope : flow.scope.raw < forest.scopes.size
  names : ∀ name ∈ flow.slotNames, forest.Interned name
  types : ∀ name, table.Holds (flow.refinement? name)

def effective? (flow : Flow) (forest : Forest) (name : Name) : Option TypeId :=
  (flow.refinement? name).or (forest.declared? flow.scope name)

/-- What a flow scope contributes to a name in another scope: its effective type if the name means
the same there, or else the type that is declared there. -/
def contribution (forest : Forest) (scope : ScopeId) (name : Name) (flow : Flow) :
    Except Fault (Option TypeId) := do
  if ← forest.sameBinding flow.scope scope name then flow.slotType forest name
  else forest.declaredType scope name

def seen? (forest : Forest) (scope : ScopeId) (name : Name) (flow : Flow) : Option TypeId :=
  if forest.meaning? flow.scope name = forest.meaning? scope name then flow.effective? forest name
  else forest.declared? scope name

/-- The refinements whose names mean the same in another scope. -/
def visible (forest : Forest) (scope : ScopeId) (flow : Flow) : Slots :=
  flow.refinements.filter fun name _ =>
    forest.meaning? flow.scope name = forest.meaning? scope name

end Flow

variable {forest : Forest} {table later : TypeTable} {scope : ScopeId} {name : Name} {flow : Flow}

theorem Forest.Typed.grow (htyped : forest.Typed table) (hgrows : table.Grows later) :
    forest.Typed later :=
  fun var hvar => hgrows.holds (htyped var hvar)

theorem Forest.declaredType_of_declared? {type : TypeId}
    (hdeclared : forest.declared? scope name = some type) :
    forest.declaredType scope name = .ok (some type) := by
  obtain ⟨var, hvar, htype⟩ := Option.bind_eq_some_iff.mp hdeclared
  rw [Forest.declaredType, Forest.resolve_of_meaning? hvar]
  exact congrArg Except.ok htype

theorem Forest.Typed.declared (htyped : forest.Typed table) (hforest : forest.Sound)
    (scope : ScopeId) (name : Name) : table.Holds (forest.declared? scope name) := by
  intro type htype
  obtain ⟨var, hvar, htype⟩ := Option.bind_eq_some_iff.mp htype
  have hresolve := Forest.resolve_of_meaning? hvar
  exact htyped var (Forest.mem_vars_of_own? (hforest.own?_of_resolve hresolve)) type htype

namespace Flow

theorem Fits.grow (hfits : flow.Fits forest table) (hgrows : table.Grows later) :
    flow.Fits forest later :=
  ⟨hfits.scope, hfits.names, fun name => hgrows.holds (hfits.types name)⟩

theorem Fits.placed (hfits : flow.Fits forest table) : flow.Placed forest :=
  ⟨hfits.scope, hfits.names⟩

theorem fits_entry (stamp : Nat) (hscope : scope.raw < forest.scopes.size) :
    (entry stamp scope).Fits forest table := by
  refine ⟨hscope, fun name hname => ?_, fun name type htype => ?_⟩
  · rw [mem_slotNames, refinement?_entry] at hname
    cases hname
  · rw [refinement?_entry] at htype
    cases htype

theorem Fits.refine (hfits : flow.Fits forest table) (stamp : Nat) (hname : forest.Interned name)
    {type : TypeId} (htype : table.Known type) :
    (flow.refine stamp name type).Fits forest table := by
  refine ⟨hfits.scope, fun other hother => ?_, fun other => ?_⟩
  · by_cases hsame : name = other
    · exact hsame ▸ hname
    · rw [mem_slotNames, refinement?_refine, if_neg hsame] at hother
      exact hfits.names other (mem_slotNames.mpr hother)
  · rw [refinement?_refine]
    split
    next =>
      intro type' htype'
      exact Option.some.inj htype' ▸ htype
    next => exact hfits.types other

theorem isReachable_iff : flow.isReachable forest = true ↔ forest.Live flow.scope := by
  unfold isReachable isBottom Forest.isBottom Forest.scope Forest.Live
  cases forest.scopes[flow.scope.raw]? <;> simp

theorem live_of_mem_filter {flows : List Flow} :
    ∀ flow ∈ flows.filter (isReachable forest), forest.Live flow.scope :=
  fun _ hflow => isReachable_iff.mp (List.mem_filter.mp hflow).2

theorem slotType_of_tells (htells : forest.Tells flow.scope name) :
    flow.slotType forest name = .ok (flow.effective? forest name) := by
  unfold slotType effective?
  cases flow.refinement? name with
  | some type => rfl
  | none => exact htells.declaredType_eq

theorem slotType_eq (hforest : forest.Sound) (hscope : flow.scope.raw < forest.scopes.size)
    (hname : forest.Interned name) :
    flow.slotType forest name = .ok (flow.effective? forest name) :=
  slotType_of_tells (hforest.tells hscope hname)

theorem contribution_eq (hforest : forest.Sound) (hflow : flow.scope.raw < forest.scopes.size)
    (hscope : scope.raw < forest.scopes.size) (hname : forest.Interned name) :
    contribution forest scope name flow = .ok (seen? forest scope name flow) := by
  rw [contribution, seen?, hforest.sameBinding_eq hflow hscope hname, Except.ok_bind]
  by_cases hsame : forest.meaning? flow.scope name = forest.meaning? scope name
  · simp only [hsame, decide_true, if_true]
    exact slotType_eq hforest hflow hname
  · simp only [hsame, decide_false, Bool.false_eq_true, if_false]
    exact hforest.declaredType_eq hscope hname

theorem Placed.refinementsIn_eq (hforest : forest.Sound) (hplaced : flow.Placed forest)
    (hscope : scope.raw < forest.scopes.size) :
    flow.refinementsIn forest scope = .ok (flow.visible forest scope) := by
  apply Slots.retain_eq_filter
  intro name hname
  have hspelled := hplaced.names name (Std.ExtTreeMap.mem_keys.mpr hname)
  exact hforest.sameBinding_eq hplaced.scope hscope hspelled

theorem getElem?_visible :
    (flow.visible forest scope)[name]? =
      if forest.meaning? flow.scope name = forest.meaning? scope name then flow.refinement? name
      else none := by
  rw [visible, Std.ExtTreeMap.getElem?_filter', getElem?_refinements]
  by_cases hsame : forest.meaning? flow.scope name = forest.meaning? scope name
  · cases flow.refinement? name <;> simp [hsame]
  · cases flow.refinement? name <;> simp [hsame]

/-- What is left of the refinements, wherever that can be told, is what is visible. -/
theorem eq_visible_of_refinementsIn (hforest : forest.Sound) {slots : Slots}
    (hslots : flow.refinementsIn forest scope = .ok slots) : slots = flow.visible forest scope := by
  apply Std.ExtTreeMap.ext_getElem?
  intro name
  apply Option.ext
  intro type
  rw [Slots.getElem?_retain hslots, getElem?_visible, getElem?_refinements]
  constructor
  · rintro ⟨hrefined, hsame⟩
    rw [if_pos (of_decide_eq_true (hforest.eq_decide_of_sameBinding hsame).symm)]
    exact hrefined
  · intro hvisible
    split at hvisible
    next hmeaning =>
      refine ⟨hvisible, ?_⟩
      have hname : name ∈ flow.refinements := by
        rw [Std.ExtTreeMap.mem_iff_isSome_getElem?, getElem?_refinements, hvisible]
        rfl
      obtain ⟨same, hsame⟩ := Slots.answered_of_retain hslots hname
      rw [hsame, hforest.eq_decide_of_sameBinding hsame, hmeaning]
      simp
    next => cases hvisible

theorem mem_slotNames_of_mem_visible (hname : name ∈ flow.visible forest scope) :
    name ∈ flow.slotNames := by
  rw [Std.ExtTreeMap.mem_iff_isSome_getElem?, getElem?_visible] at hname
  split at hname
  next => exact mem_slotNames.mpr hname
  next => cases hname

/-- The declared type stands in for what is not refined, or means something else. -/
theorem visible_or_declared :
    (flow.visible forest scope)[name]?.or (forest.declared? scope name) =
      flow.seen? forest scope name := by
  rw [getElem?_visible, seen?]
  by_cases hsame : forest.meaning? flow.scope name = forest.meaning? scope name
  · rw [if_pos hsame, if_pos hsame, effective?, Forest.declared?, Forest.declared?, hsame]
  · rw [if_neg hsame, if_neg hsame, Option.none_or]

/-- What a flow scope contributes is known if its refinements and the declarations are. -/
theorem holds_seen (hforest : forest.Sound) (htyped : forest.Typed table)
    (htypes : ∀ name, table.Holds (flow.refinement? name)) (scope : ScopeId) (name : Name) :
    table.Holds (flow.seen? forest scope name) := by
  have hdeclared := htyped.declared hforest
  unfold seen? effective?
  split
  · cases hrefined : flow.refinement? name with
    | none => exact hdeclared flow.scope name
    | some type =>
      rw [Option.some_or, ← hrefined]
      exact htypes name
  · exact hdeclared scope name

theorem Fits.seen (hfits : flow.Fits forest table) (hforest : forest.Sound)
    (htyped : forest.Typed table) (scope : ScopeId) (name : Name) :
    table.Holds (flow.seen? forest scope name) :=
  holds_seen hforest htyped hfits.types scope name

theorem seen?_self : flow.seen? forest flow.scope name = flow.effective? forest name :=
  if_pos rfl

theorem Fits.effective (hfits : flow.Fits forest table) (hforest : forest.Sound)
    (htyped : forest.Typed table) (name : Name) : table.Holds (flow.effective? forest name) := by
  rw [← seen?_self]
  exact hfits.seen hforest htyped flow.scope name

theorem isBottom_eq (hscope : flow.scope.raw < forest.scopes.size) :
    flow.isBottom forest = .ok (forest.scopes[flow.scope.raw].kind = .bottom) := by
  rw [isBottom, Forest.isBottom, Forest.scope, Array.getElem?_eq_getElem hscope]
  rfl

theorem live_eq_ok {flows : List Flow}
    (hscopes : ∀ flow ∈ flows, flow.scope.raw < forest.scopes.size) :
    live forest flows = .ok (flows.filter (isReachable forest)) := by
  have hlive : ∃ reachable, live forest flows = .ok reachable := by
    induction flows with
    | nil => exact ⟨[], rfl⟩
    | cons flow flows ih =>
      obtain ⟨hscope, hscopes⟩ := List.forall_mem_cons.mp hscopes
      obtain ⟨rest, hrest⟩ := ih hscopes
      rw [live, isBottom_eq hscope, hrest]
      exact ⟨_, rfl⟩
  obtain ⟨reachable, hlive⟩ := hlive
  rw [hlive, live_eq_filter hlive]

/-- The scopes of reachable branches have a nearest scope around them. -/
theorem scopeAround_spec (hforest : forest.Sound) {flows : List Flow} {start : ScopeId}
    (hstart : forest.Live start) (hlive : ∀ flow ∈ flows, forest.Live flow.scope) :
    ∃ around, scopeAround forest start flows = .ok around ∧ forest.Live around ∧
      forest.NearestAround (start :: flows.map Flow.scope) around := by
  induction flows generalizing start with
  | nil => exact ⟨start, rfl, hstart, Forest.nearestAround_singleton start⟩
  | cons flow flows ih =>
    obtain ⟨hflow, hlive⟩ := List.forall_mem_cons.mp hlive
    obtain ⟨between, hbetween, hreached, hnear⟩ := hforest.commonAncestor_spec hstart hflow
    obtain ⟨around, haround, haroundLive, hnear'⟩ := ih hreached hlive
    refine ⟨around, ?_, haroundLive, fun id => ?_⟩
    · rw [scopeAround, hbetween]
      exact haround
    · rw [hnear' id, List.forall_mem_cons, hnear id]
      simp [and_assoc]

end Flow
end FlowTyping
