import FlowTyping.Implicit

/-!
# Flow scopes

A flow scope is the types of slots at one point of a program: a chain of layers over an entry. Each
layer records the slots that were refined in it; the effective type of a slot is its nearest
refinement, or else its declared type in the scope of the top layer.

Layers are never changed. Every layer bears the stamp of the operation that made it, and no two
operations share a stamp, so flow scopes are equal only if they are the same layer over the same
chain. An operation that makes two layers stacks them, and their chains differ in length.
-/
namespace FlowTyping

abbrev Slots := Std.ExtTreeMap Name TypeId

/-- One layer: the declaration scope in effect, the slots that were refined here, and the number of
layers between this one and the entry. The number has no bound here, so no chain is too long. -/
structure Flow.Layer where
  stamp : Nat
  scope : ScopeId
  slots : Slots
  depth : Nat
deriving DecidableEq

/-- A chain of layers, the nearest on top and the entry at the bottom. -/
structure Flow where
  top : Flow.Layer
  below : List Flow.Layer

namespace Flow

instance : DecidableEq Flow := fun f g =>
  decidable_of_iff (f.top = g.top ∧ (f.below == g.below) = true) <| by
    cases f; cases g; simp

def scope (flow : Flow) : ScopeId := flow.top.scope

def layers (flow : Flow) : List Layer := flow.top :: flow.below

/-- The number of layers above the entry, as the top layer has it. -/
def depth (flow : Flow) : Nat := flow.top.depth

/-- The chain without its top layer. -/
def parent? (flow : Flow) : Option Flow :=
  match flow.below with
  | [] => none
  | layer :: layers => some ⟨layer, layers⟩

/-- The bottom layer of a chain alone. -/
def base (flow : Flow) : Flow := ⟨flow.below.getLastD flow.top, []⟩

/-- The entry of a scope, where every slot has its declared type. -/
def entry (stamp : Nat) (scope : ScopeId) : Flow := ⟨⟨stamp, scope, ∅, 0⟩, []⟩

/-- One layer over the entry of a scope. -/
def overEntry (stamp : Nat) (scope : ScopeId) (slots : Slots) : Flow :=
  ⟨⟨stamp, scope, slots, 1⟩, (entry stamp scope).layers⟩

/-- An empty layer in a scope, on top of a chain. -/
def push (flow : Flow) (stamp : Nat) (scope : ScopeId) : Flow :=
  ⟨⟨stamp, scope, ∅, flow.depth + 1⟩, flow.layers⟩

/-- An empty layer in the same scope, on top of a chain. -/
def child (flow : Flow) (stamp : Nat) : Flow := flow.push stamp flow.scope

/-- A chain whose top layer refines one more slot. The last refinement in a layer counts. -/
def refine (flow : Flow) (stamp : Nat) (name : Name) (type : TypeId) : Flow :=
  { flow with top := { flow.top with stamp := stamp, slots := flow.top.slots.insert name type } }

/-- The nearest refinement of a name. -/
def refinement? (flow : Flow) (name : Name) : Option TypeId :=
  flow.layers.findSome? (·.slots[name]?)

/-- The nearest refinements of all names that are refined along some layers, over those of nearer
layers. -/
def overlay (nearer : Slots) (layers : List Layer) : Slots :=
  layers.foldl (fun nearer layer => layer.slots ∪ nearer) nearer

def refinements (flow : Flow) : Slots := overlay flow.top.slots flow.below

/-- The names that are refined anywhere along the chain, in order. -/
def slotNames (flow : Flow) : List Name := flow.refinements.keys

@[simp] theorem scope_push (flow : Flow) (stamp : Nat) (scope : ScopeId) :
    (flow.push stamp scope).scope = scope := rfl

@[simp] theorem depth_push (flow : Flow) (stamp : Nat) (scope : ScopeId) :
    (flow.push stamp scope).depth = flow.depth + 1 := rfl

@[simp] theorem parent?_push (flow : Flow) (stamp : Nat) (scope : ScopeId) :
    (flow.push stamp scope).parent? = some flow := rfl

@[simp] theorem scope_refine (flow : Flow) (stamp : Nat) (name : Name) (type : TypeId) :
    (flow.refine stamp name type).scope = flow.scope := rfl

@[simp] theorem depth_refine (flow : Flow) (stamp : Nat) (name : Name) (type : TypeId) :
    (flow.refine stamp name type).depth = flow.depth := rfl

@[simp] theorem refinement?_entry (stamp : Nat) (scope : ScopeId) (name : Name) :
    (entry stamp scope).refinement? name = none := by
  simp [refinement?, layers, entry]

@[simp] theorem refinement?_push (flow : Flow) (stamp : Nat) (scope : ScopeId) (name : Name) :
    (flow.push stamp scope).refinement? name = flow.refinement? name := by
  simp [refinement?, layers, push]

@[simp] theorem refinement?_overEntry (stamp : Nat) (scope : ScopeId) (slots : Slots)
    (name : Name) : (overEntry stamp scope slots).refinement? name = slots[name]? := by
  cases found : slots[name]? <;> simp [refinement?, layers, overEntry, entry, found]

theorem refinement?_refine (flow : Flow) (stamp : Nat) (name other : Name) (type : TypeId) :
    (flow.refine stamp name type).refinement? other =
      if name = other then some type else flow.refinement? other := by
  simp only [refinement?, layers, refine, List.findSome?_cons, Std.ExtTreeMap.getElem?_insert,
    Std.compare_eq_iff_eq]
  by_cases same : name = other <;> simp [same]

theorem getElem?_overlay (nearer : Slots) (layers : List Layer) (name : Name) :
    (overlay nearer layers)[name]? = nearer[name]?.or (layers.findSome? (·.slots[name]?)) := by
  induction layers generalizing nearer with
  | nil => simp [overlay]
  | cons layer layers ih =>
    rw [overlay, List.foldl_cons, ← overlay, ih, Std.ExtTreeMap.getElem?_union]
    cases nearer[name]? <;> cases found : layer.slots[name]? <;> simp [found]

/-- The refinements of a chain give every name its nearest refinement. -/
theorem getElem?_refinements (flow : Flow) (name : Name) :
    flow.refinements[name]? = flow.refinement? name := by
  rw [refinements, getElem?_overlay, refinement?, layers, List.findSome?_cons]
  cases flow.top.slots[name]? <;> simp

theorem mem_slotNames {flow : Flow} {name : Name} :
    name ∈ flow.slotNames ↔ (flow.refinement? name).isSome := by
  rw [slotNames, Std.ExtTreeMap.mem_keys, Std.ExtTreeMap.mem_iff_isSome_getElem?,
    getElem?_refinements]

theorem mem_slotNames_of_some {flow : Flow} {name : Name} {type : TypeId}
    (htype : flow.refinement? name = some type) : name ∈ flow.slotNames :=
  mem_slotNames.mpr (Option.isSome_iff_exists.mpr ⟨type, htype⟩)

/-- Whether the flow scope stands for unreachable code. -/
def isBottom (flow : Flow) (forest : Forest) : Except Fault Bool := forest.isBottom flow.scope

/-- The effective type of a declared name. -/
def slotType (flow : Flow) (forest : Forest) (name : Name) : Except Fault (Option TypeId) :=
  match flow.refinement? name with
  | some type => .ok (some type)
  | none => forest.declaredType flow.scope name

/-- The effective type of an implicit variable: the nearest refinement of its name, or else the type
that the scope owning it gives. -/
def implicitSlotType {Λ : Type} [TypeLattice Λ] (flow : Flow) (forest : Forest) (types : Λ)
    (var : Implicit) : Except Fault (Option TypeId) :=
  match flow.refinement? var.name with
  | some type => .ok (some type)
  | none => do return (← forest.resolveImplicit types flow.scope var).bind (·.type)

def slotText (name : Name) (type : TypeId) : String :=
  Text.record "FlowSlot" [("name", name.text), ("ty", type.text)]

/-- The top layer and the depth of the chain as a record. -/
def text (flow : Flow) : String :=
  Text.openRecord "FlowScope"
    [("scope", flow.scope.text), ("depth", toString flow.depth),
      ("slots", Text.listed (flow.top.slots.toList.map fun (name, type) =>
        Text.paired name.text type.text))]

end Flow

namespace Slots

/-- The entries whose name passes a test. The first fault, in the order of names, decides. -/
def retain (slots : Slots) (keep : Name → Except Fault Bool) : Except Fault Slots :=
  slots.keys.foldlM (fun kept name => do
    return if ← keep name then kept else kept.erase name) slots

private theorem foldlM_erase {keep : Name → Except Fault Bool} {test : Name → Bool}
    {names : List Name} (h : ∀ name ∈ names, keep name = .ok (test name)) (kept : Slots) :
    ∃ left : Slots,
      names.foldlM (fun kept name => do
        return if ← keep name then kept else kept.erase name) kept = .ok left ∧
      ∀ name, left[name]? = if name ∈ names ∧ test name = false then none else kept[name]? := by
  induction names generalizing kept with
  | nil => exact ⟨kept, rfl, by simp⟩
  | cons first names ih =>
    have later := fun name found => h name (List.mem_cons_of_mem first found)
    obtain ⟨left, run, look⟩ := ih later (if test first then kept else kept.erase first)
    refine ⟨left, ?_, fun name => ?_⟩
    · rw [List.foldlM_cons, h first List.mem_cons_self]
      exact run
    · rw [look]
      by_cases same : name = first
      · subst same
        cases test name <;> simp
      · have apart : ¬first = name := fun h => same h.symm
        cases test first <;> simp [same, apart, Std.ExtTreeMap.getElem?_erase]

/-- Where the test has an answer for every entry, the entries that pass it are kept. -/
theorem retain_eq_filter {slots : Slots} {keep : Name → Except Fault Bool} {test : Name → Bool}
    (h : ∀ name ∈ slots, keep name = .ok (test name)) :
    slots.retain keep = .ok (slots.filter fun name _ => test name) := by
  obtain ⟨left, run, look⟩ := foldlM_erase
    (fun name found => h name (Std.ExtTreeMap.mem_keys.mp found)) slots
  refine run.trans (congrArg _ (Std.ExtTreeMap.ext_getElem? fun name => ?_))
  rw [look, Std.ExtTreeMap.getElem?_filter']
  simp only [Std.ExtTreeMap.mem_keys, Std.ExtTreeMap.mem_iff_isSome_getElem?]
  cases slots[name]? <;> cases test name <;> simp [Option.filter]

end Slots
end FlowTyping
