import FlowTyping.Flow.Comparison
import FlowTyping.Proofs.Flow.Compaction
import Mathlib.Data.List.Perm.Basic

/-!
# The slot refined since

Between a chain and one that it grew from lie some layers. Exactly one slot was refined since if one
name is written in these layers and no other, however often it is written and whatever was refined
below them. A search that takes the slots of each layer in any order, and stops at a second name,
finds the same slot.

Layers are told apart by the stamp of the operation that made them and their place over the entry. A
handle that is written to goes on with a new layer, which lies on no chain that was there before.
-/
namespace FlowTyping
namespace Flow
variable {flow other reached : Flow} {layers : List Layer} {name : Name} {type : TypeId}

/-- What tells a layer apart from the others of a run. -/
def mark (flow : Flow) : Nat × Nat := (flow.top.stamp, flow.depth)

def OnlyWritten (layers : List Layer) (name : Name) : Prop :=
  ∀ written, (∃ layer ∈ layers, written ∈ layer.slots) ↔ written = name

/-! ## Ancestors -/

theorem ancestor?_eq_some_iff {links : Nat} :
    flow.ancestor? links = some other ↔ flow.layers.drop links = other.layers := by
  induction links generalizing flow with
  | zero =>
    obtain ⟨top, below⟩ := flow
    obtain ⟨top', below'⟩ := other
    simp [ancestor?, Flow.layers]
  | succ links ih =>
    obtain ⟨top, below⟩ := flow
    cases below with
    | nil => simp [ancestor?, parent?, Flow.layers]
    | cons layer below => exact @ih ⟨layer, below⟩

theorem ancestor?_trans {links more : Nat} (hreached : flow.ancestor? links = some reached)
    (hother : reached.ancestor? more = some other) :
    flow.ancestor? (links + more) = some other := by
  rw [ancestor?_eq_some_iff] at *
  rw [← List.drop_drop, hreached, hother]

theorem layers_inj : flow.layers = other.layers ↔ flow = other := by
  rw [← List.drop_zero (l := flow.layers), ← ancestor?_eq_some_iff, ancestor?, Option.some.injEq]

theorem Counted.ancestor {links : Nat} (hcounted : flow.Counted)
    (hreached : flow.ancestor? links = some reached) : reached.Counted := by
  have hlayers := ancestor?_eq_some_iff.mp hreached
  rw [Counted, ← List.take_append_drop links flow.layers, hlayers] at hcounted
  exact hcounted.of_append

theorem Counted.length_layers (hcounted : flow.Counted) :
    flow.layers.length = flow.depth + 1 :=
  congrArg (· + 1) hcounted.1.symm

/-- In a counted chain no two places have the same depth. -/
theorem Counted.ancestor_unique {links links' : Nat} (hcounted : flow.Counted)
    (hreached : flow.ancestor? links = some reached) (hother : flow.ancestor? links' = some other)
    (hdepth : reached.depth = other.depth) : reached = other := by
  have hlength := (hcounted.ancestor hreached).length_layers
  have hlength' := (hcounted.ancestor hother).length_layers
  rw [ancestor?_eq_some_iff] at hreached hother
  rw [← hreached, List.length_drop] at hlength
  rw [← hother, List.length_drop] at hlength'
  have hlinks : links = links' := by omega
  rw [← layers_inj, ← hreached, ← hother, hlinks]

/-! ## The refined slot -/

/-- Cutting nothing off is the only way to keep the whole chain. -/
theorem drop_cons_eq_self_iff {layer : Layer} {below : List Layer} {links : Nat} :
    (layer :: below).drop links = (⟨layer, below⟩ : Flow).layers ↔ links = 0 := by
  constructor
  · intro hdrop
    have hlength := congrArg List.length hdrop
    rw [List.length_drop, Flow.layers, List.length_cons] at hlength
    omega
  · rintro rfl
    rfl

theorem drop_cons_eq_iff {layer : Layer} {below : List Layer} {links : Nat}
    (hother : (⟨layer, below⟩ : Flow) ≠ other) :
    (layer :: below).drop links = other.layers ↔
      ∃ fewer, links = fewer + 1 ∧ below.drop fewer = other.layers := by
  cases links with
  | zero =>
    have hne : layer :: below ≠ other.layers := fun hlayers => hother (layers_inj.mp hlayers)
    simpa using hne
  | succ links => simp

/-- The refinements above another chain are found by cutting it off. -/
theorem refinedAbove?_eq_some_iff {nearer slots : Slots} :
    refinedAbove? other nearer layers = some slots ↔
      ∃ links, layers.drop links = other.layers ∧ slots = overlay nearer (layers.take links) := by
  induction layers generalizing nearer with
  | nil => simp [refinedAbove?, Flow.layers]
  | cons layer below ih =>
    by_cases hother : (⟨layer, below⟩ : Flow) = other
    · subst hother
      rw [refinedAbove?, if_pos rfl, Option.some.injEq]
      simp only [drop_cons_eq_self_iff, exists_eq_left]
      exact eq_comm
    · rw [refinedAbove?, if_neg hother, ih]
      simp only [drop_cons_eq_iff hother]
      constructor
      · rintro ⟨links, hdrop, rfl⟩
        exact ⟨links + 1, ⟨links, rfl, hdrop⟩, rfl⟩
      · rintro ⟨_, ⟨links, rfl, hdrop⟩, rfl⟩
        exact ⟨links, hdrop, rfl⟩

theorem toList_eq_singleton_iff {slots : Slots} :
    slots.toList = [(name, type)] ↔
      ∀ other found, slots[other]? = some found ↔ other = name ∧ found = type := by
  have hmem : ∀ other found, (other, found) ∈ slots.toList ↔ slots[other]? = some found :=
    fun _ _ => Std.ExtTreeMap.mem_toList_iff_getElem?_eq_some
  have hnodup : slots.toList.Nodup :=
    Std.ExtTreeMap.distinct_keys_toList.imp fun hapart hsame =>
      hapart (by rw [hsame]; exact Std.ReflCmp.compare_self)
  rw [← List.perm_singleton, List.perm_ext_iff_of_nodup hnodup (List.nodup_singleton _)]
  simp only [Prod.forall, hmem, List.mem_singleton, Prod.mk.injEq]

theorem getElem?_overlay_empty (layers : List Layer) (name : Name) :
    (overlay ∅ layers)[name]? = layers.findSome? (·.slots[name]?) := by
  rw [getElem?_overlay, Std.ExtTreeMap.getElem?_empty, Option.none_or]

theorem exists_written_iff : (∃ layer ∈ layers, name ∈ layer.slots) ↔
    (overlay ∅ layers)[name]?.isSome := by
  rw [getElem?_overlay_empty, List.findSome?_isSome_iff]
  simp only [Std.ExtTreeMap.mem_iff_isSome_getElem?]

/-- What is written in the upper layers of a chain is refined as it is there. -/
theorem refinement?_eq_of_written {links : Nat}
    (hwritten : ∃ layer ∈ flow.layers.take links, name ∈ layer.slots) :
    flow.refinement? name = (overlay ∅ (flow.layers.take links))[name]? := by
  obtain ⟨found, hfound⟩ := Option.isSome_iff_exists.mp (exists_written_iff.mp hwritten)
  have hchain : flow.refinement? name =
      ((flow.layers.take links) ++ (flow.layers.drop links)).findSome? (·.slots[name]?) := by
    rw [List.take_append_drop, refinement?]
  rw [hchain, List.findSome?_append, ← getElem?_overlay_empty, hfound, Option.some_or]

/-- A slot is the one refined since a chain grew from another if its name alone is written on the
way. -/
theorem uniqueRefinement?_eq_some_iff :
    flow.uniqueRefinement? other = some (name, type) ↔
      ∃ links, flow.ancestor? links = some other ∧ OnlyWritten (flow.layers.take links) name ∧
        flow.refinement? name = some type := by
  have hlist : flow.uniqueRefinement? other = some (name, type) ↔
      ∃ slots, refinedAbove? other ∅ flow.layers = some slots ∧ slots.toList = [(name, type)] := by
    unfold uniqueRefinement?
    cases refinedAbove? other ∅ flow.layers with
    | none => simp
    | some slots =>
      simp only [Option.map_some, Option.some.injEq, exists_eq_left']
      match slots.toList with
      | [] => simp
      | [slot] => simp
      | first :: second :: rest => simp
  simp only [hlist, refinedAbove?_eq_some_iff, toList_eq_singleton_iff, ancestor?_eq_some_iff]
  constructor
  · rintro ⟨slots, ⟨links, hdrop, rfl⟩, hlook⟩
    have honly : OnlyWritten (flow.layers.take links) name := by
      intro written
      rw [exists_written_iff, Option.isSome_iff_exists]
      simp [hlook]
    have hname := (hlook name type).mpr ⟨rfl, rfl⟩
    exact ⟨links, hdrop, honly, (refinement?_eq_of_written ((honly name).mpr rfl)).trans hname⟩
  · rintro ⟨links, hdrop, honly, hrefined⟩
    refine ⟨_, ⟨links, hdrop, rfl⟩, fun written found => ?_⟩
    rw [refinement?_eq_of_written ((honly name).mpr rfl)] at hrefined
    constructor
    · intro hfound
      obtain rfl := (honly written).mp (exists_written_iff.mpr (by rw [hfound]; rfl))
      exact ⟨rfl, Option.some.inj (hfound.symm.trans hrefined)⟩
    · rintro ⟨rfl, rfl⟩
      exact hrefined

/-! ## Search in any order -/

def scanNames : Option Name → List Name → Option (Option Name)
  | seen, [] => some seen
  | none, name :: names => scanNames (some name) names
  | some seen, name :: names => if seen = name then scanNames (some seen) names else none

/-- Goes through layers, their names in a given order, until another chain is reached. A second name
ends the search, also if the other chain is never reached. -/
def scanLayers (order : Layer → List Name) (other : Flow) :
    Option Name → List Layer → Option Name
  | _, [] => none
  | seen, layer :: layers =>
    if ⟨layer, layers⟩ = other then seen
    else (scanNames seen (order layer)).bind fun seen => scanLayers order other seen layers

def searchUnique (order : Layer → List Name) (flow other : Flow) : Option (Name × TypeId) :=
  (scanLayers order other none flow.layers).bind fun name => (flow.refinement? name).map (name, ·)

theorem scanNames_append (seen : Option Name) (names more : List Name) :
    scanNames seen (names ++ more) = (scanNames seen names).bind (scanNames · more) := by
  fun_induction scanNames seen names with
  | case1 => rfl
  | case2 name names ih => exact ih
  | case3 name names ih => rw [List.cons_append, scanNames, if_pos rfl, ih]
  | case4 seen name names hne => rw [List.cons_append, scanNames, if_neg hne, Option.bind_none]

/-- Names are gone through to the end with one name seen if all of them are this one. -/
theorem scanNames_eq_iff {seen : Option Name} {names : List Name} :
    scanNames seen names = some (some name) ↔
      ∀ written, seen = some written ∨ written ∈ names ↔ written = name := by
  fun_induction scanNames seen names with
  | case1 seen =>
    cases seen with
    | none => simp
    | some seen => simp [eq_comm]
  | case2 first names ih => simp [ih, eq_comm]
  | case3 seen names ih => simp [ih, eq_comm]
  | case4 seen first names hne =>
    refine iff_of_false (by simp) fun hall => hne ?_
    rw [(hall seen).mp (.inl rfl), (hall first).mp (.inr List.mem_cons_self)]

theorem scanLayers_eq_some_iff {order : Layer → List Name} {seen : Option Name} :
    scanLayers order other seen layers = some name ↔
      ∃ links, layers.drop links = other.layers ∧
        scanNames seen ((layers.take links).flatMap order) = some (some name) := by
  induction layers generalizing seen with
  | nil => simp [scanLayers, Flow.layers]
  | cons layer below ih =>
    by_cases hother : (⟨layer, below⟩ : Flow) = other
    · subst hother
      rw [scanLayers, if_pos rfl]
      simp only [drop_cons_eq_self_iff, exists_eq_left]
      exact Option.some.injEq seen (some name) ▸ Iff.rfl
    · rw [scanLayers, if_neg hother, Option.bind_eq_some_iff]
      simp only [ih, drop_cons_eq_iff hother]
      constructor
      · rintro ⟨last, hfirst, links, hdrop, hscan⟩
        refine ⟨links + 1, ⟨links, rfl, hdrop⟩, ?_⟩
        rw [List.take_succ_cons, List.flatMap_cons, scanNames_append, hfirst]
        exact hscan
      · rintro ⟨_, ⟨links, rfl, hdrop⟩, hscan⟩
        rw [List.take_succ_cons, List.flatMap_cons, scanNames_append,
          Option.bind_eq_some_iff] at hscan
        obtain ⟨last, hfirst, hscan⟩ := hscan
        exact ⟨last, hfirst, links, hdrop, hscan⟩

/-- In whatever order the names of each layer come, the search finds the slot. -/
theorem searchUnique_eq {order : Layer → List Name}
    (horder : ∀ layer ∈ flow.layers, ∀ name, name ∈ order layer ↔ name ∈ layer.slots) :
    flow.searchUnique order other = flow.uniqueRefinement? other := by
  have honly : ∀ links name,
      scanNames none ((flow.layers.take links).flatMap order) = some (some name) ↔
        OnlyWritten (flow.layers.take links) name := by
    intro links name
    rw [scanNames_eq_iff]
    refine forall_congr' fun written => iff_congr ?_ Iff.rfl
    rw [List.mem_flatMap]
    simp only [reduceCtorEq, false_or]
    refine exists_congr fun layer => and_congr_right fun hlayer => ?_
    exact horder layer (List.mem_of_mem_take hlayer) written
  apply Option.ext
  rintro ⟨name, type⟩
  simp only [uniqueRefinement?_eq_some_iff, searchUnique, Option.bind_eq_some_iff,
    scanLayers_eq_some_iff, honly, ancestor?_eq_some_iff, Option.map_eq_some_iff, Prod.mk.injEq]
  constructor
  · rintro ⟨found, ⟨links, hdrop, hwritten⟩, _, hrefined, rfl, rfl⟩
    exact ⟨links, hdrop, hwritten, hrefined⟩
  · rintro ⟨links, hdrop, hwritten, hrefined⟩
    exact ⟨name, ⟨links, hdrop, hwritten⟩, type, hrefined, rfl, rfl⟩

end Flow

/-! ## Layers of a run -/

namespace FlowStore
open FlowTyping.Flow
variable {store later : FlowStore} {flow made reached kept : Flow} {key target : String}

def Reaches (store : FlowStore) (flow : Flow) : Prop :=
  ∃ (key : String) (kept : Flow) (links : Nat),
    store.flows[key]? = some kept ∧ kept.ancestor? links = some flow

/-- No stamp is in use that is still to be given to a new layer, and no two flow scopes that are in
use have the same mark. -/
structure Marked (store : FlowStore) : Prop where
  older : ∀ {flow}, store.Reaches flow → flow.top.stamp < store.nextStamp
  apart : ∀ {flow other}, store.Reaches flow → store.Reaches other → flow.mark = other.mark →
    flow = other

theorem reaches_ancestor {links : Nat} (hflow : store.Reaches flow)
    (hreached : flow.ancestor? links = some reached) : store.Reaches reached := by
  obtain ⟨key, kept, above, hkept, hflow⟩ := hflow
  exact ⟨key, kept, above + links, hkept, ancestor?_trans hflow hreached⟩

theorem reaches_base (hcounted : flow.Counted) (hflow : store.flows[key]? = some flow) :
    store.Reaches flow.base :=
  ⟨key, flow, flow.depth, hflow, hcounted.ancestor?_depth⟩

/-- Of the layers of a new flow scope those are new that bear its stamp. -/
theorem Makes.reaches_or_new (hmade : store.Makes made)
    (hcounted : ∀ (key : String) flow, store.flows[key]? = some flow → flow.Counted) {links : Nat}
    (hreached : made.ancestor? links = some reached) :
    store.Reaches reached ∨ reached.top.stamp = store.nextStamp := by
  cases hmade with
  | kept hflow => exact .inl ⟨_, made, links, hflow, hreached⟩
  | entry scope =>
    cases links with
    | zero => exact .inr (by rw [← Option.some.inj hreached]; rfl)
    | succ links => cases hreached
  | overEntry scope slots =>
    match links with
    | 0 => exact .inr (by rw [← Option.some.inj hreached]; rfl)
    | 1 => exact .inr (by rw [← Option.some.inj hreached]; rfl)
    | links + 2 => cases hreached
  | @push key flow hflow scope =>
    cases links with
    | zero => exact .inr (by rw [← Option.some.inj hreached]; rfl)
    | succ links => exact .inl ⟨key, flow, links, hflow, hreached⟩
  | @refine key flow hflow name type =>
    cases links with
    | zero => exact .inr (by rw [← Option.some.inj hreached]; rfl)
    | succ links => exact .inl ⟨key, flow, links + 1, hflow, hreached⟩
  | @compact key flow hflow =>
    have hbase := reaches_base (hcounted key flow hflow) hflow
    rcases (hcounted key flow hflow).compact_cases store.nextStamp with
      ⟨_, hshort⟩ | ⟨_, _, hshort⟩ | ⟨_, _, hshort⟩
    · rw [hshort] at hreached
      exact .inl (reaches_ancestor hbase hreached)
    · rw [hshort] at hreached
      exact .inl ⟨key, flow, links, hflow, hreached⟩
    · rw [hshort] at hreached
      cases links with
      | zero => exact .inr (by rw [← Option.some.inj hreached])
      | succ links => exact .inl (reaches_ancestor hbase hreached)

theorem reaches_put (hreached : (store.put target made).Reaches reached) :
    store.Reaches reached ∨ ∃ links, made.ancestor? links = some reached := by
  obtain ⟨key, kept, links, hkept, hreached⟩ := hreached
  rcases getElem?_put hkept with rfl | hkept
  · exact .inr ⟨links, hreached⟩
  · exact .inl ⟨key, kept, links, hkept, hreached⟩

/-- A flow scope whose layers are old or bear the new stamp can be kept. -/
theorem Marked.put (hmarked : store.Marked) (hcounted : made.Counted)
    (hmade : ∀ {links reached}, made.ancestor? links = some reached →
      store.Reaches reached ∨ reached.top.stamp = store.nextStamp) (target : String) :
    (store.put target made).Marked := by
  have hcases : ∀ {flow}, (store.put target made).Reaches flow → store.Reaches flow ∨
      flow.top.stamp = store.nextStamp ∧ ∃ links, made.ancestor? links = some flow := by
    intro flow hflow
    rcases reaches_put hflow with hold | ⟨links, hlinks⟩
    · exact .inl hold
    · exact (hmade hlinks).imp_right fun hnew => ⟨hnew, links, hlinks⟩
  constructor
  · intro flow hflow
    rcases hcases hflow with hold | ⟨hnew, _⟩
    · exact Nat.lt_succ_of_lt (hmarked.older hold)
    · exact hnew ▸ Nat.lt_succ_self _
  · intro flow other hflow hother hmark
    obtain ⟨hstamp, hdepth⟩ := Prod.mk.inj hmark
    rcases hcases hflow with hold | ⟨hnew, links, hlinks⟩
    · rcases hcases hother with hold' | ⟨hnew', _⟩
      · exact hmarked.apart hold hold' hmark
      · exact absurd (hstamp.trans hnew') (hmarked.older hold).ne
    · rcases hcases hother with hold' | ⟨_, links', hlinks'⟩
      · exact absurd (hstamp.symm.trans hnew) (hmarked.older hold').ne
      · exact hcounted.ancestor_unique hlinks hlinks' hdepth

/-- In a run layers are told apart by their marks. -/
theorem Reachable.marked (hreached : store.Reachable) : store.Marked := by
  induction hreached with
  | empty =>
    have hnone : ∀ {flow}, ¬FlowStore.empty.Reaches flow := by
      rintro flow ⟨key, kept, links, hkept, _⟩
      simp [FlowStore.empty] at hkept
    exact ⟨fun hflow => absurd hflow hnone, fun hflow => absurd hflow hnone⟩
  | @step Λ _ store later made types changed forest step hreached hstep ih =>
    obtain ⟨hmade, rfl⟩ := cases_of_perform hstep
    have hcounted : ∀ (key : String) flow, store.flows[key]? = some flow → flow.Counted :=
      fun _ _ hflow => hreached.counted hflow
    exact ih.put (hmade.counted hcounted) (hmade.reaches_or_new hcounted) _
  | parent key target hreached hput ih =>
    rcases cases_of_keepingParent hput with rfl | ⟨flow, parent, hflow, hparent, rfl⟩
    · exact ih
    · have hlink : flow.ancestor? 1 = some parent := by rw [ancestor?, hparent]; rfl
      refine ih.put ((hreached.counted hflow).parent hparent) (fun hlinks => .inl ?_) target
      exact reaches_ancestor ⟨key, flow, 1, hflow, hlink⟩ hlinks
  | @drop store dropped _ ih =>
    have hkept : ∀ {flow}, (store.drop dropped).2.Reaches flow → store.Reaches flow := by
      rintro flow ⟨key, kept, links, hkept, hlinks⟩
      simp only [FlowStore.drop, Std.ExtTreeMap.getElem?_erase] at hkept
      split at hkept
      next => cases hkept
      next => exact ⟨key, kept, links, hkept, hlinks⟩
    exact ⟨fun hflow => ih.older (hkept hflow),
      fun hflow hother => ih.apart (hkept hflow) (hkept hother)⟩

theorem run_refine {Λ : Type} [TypeLattice Λ] (hflow : store.flows[key]? = some flow)
    (forest : Forest) (types : Λ) (name : Name) (type : TypeId) :
    (store.perform forest (.refine key name type)).run.run types =
      (.ok (flow.refine store.nextStamp name type,
        store.put key (flow.refine store.nextStamp name type)), types) := by
  have hfind : store.result forest (.refine key name type) =
      (pure (flow.refine store.nextStamp name type) : Attempt Fault Λ Flow) := by
    rw [result, find_eq_ok_iff.mpr hflow]
    rfl
  rw [perform, hfind, pure_bind]
  rfl

/-- Between two flow scopes of a run a slot is the one refined since if and only if the layer of the
second is on the chain of the first, and no other name is written in the layers above it. The order
in which slots are looked at makes no difference. A flow scope that is written to goes on with a
layer that is on no chain that was there before. -/
theorem Reachable.uniqueRefinement?_exact (hreached : store.Reachable) {key other : String}
    {f g : Flow} (hf : store.flows[key]? = some f) (hg : store.flows[other]? = some g) :
    (∀ forest name type, f.uniqueRefinement? g = some (name, type) ↔
      ∃ links reached, f.ancestor? links = some reached ∧ reached.mark = g.mark ∧
        OnlyWritten (f.layers.take links) name ∧ f.slotType forest name = .ok (some type)) ∧
    (∀ order : Layer → List Name,
      (∀ layer ∈ f.layers, ∀ name, name ∈ order layer ↔ name ∈ layer.slots) →
        f.searchUnique order g = f.uniqueRefinement? g) ∧
    ∀ {Λ : Type} [TypeLattice Λ] (forest : Forest) (types : Λ) name type, ∃ written later,
      (store.perform forest (.refine key name type)).run.run types =
          (.ok (written, later), types) ∧
        later.flows[key]? = some written ∧ (other ≠ key → later.flows[other]? = some g) ∧
        (∀ links reached, g.ancestor? links = some reached → reached.mark ≠ written.mark) ∧
        g.uniqueRefinement? written = none := by
  have hmarked := hreached.marked
  have hreachesF : ∀ {links reached}, f.ancestor? links = some reached → store.Reaches reached :=
    fun hlinks => ⟨key, f, _, hf, hlinks⟩
  have hreachesG : ∀ {links reached}, g.ancestor? links = some reached → store.Reaches reached :=
    fun hlinks => ⟨other, g, _, hg, hlinks⟩
  refine ⟨fun forest name type => ?_, fun order => searchUnique_eq,
    fun {Λ _} forest types name type => ?_⟩
  · rw [uniqueRefinement?_eq_some_iff]
    constructor
    · rintro ⟨links, hlinks, honly, hrefined⟩
      exact ⟨links, g, hlinks, rfl, honly, by rw [slotType, hrefined]⟩
    · rintro ⟨links, reached, hlinks, hmark, honly, hslot⟩
      obtain rfl := hmarked.apart (hreachesF hlinks) (@hreachesG 0 g rfl) hmark
      obtain ⟨found, hfound⟩ := Option.isSome_iff_exists.mp
        (exists_written_iff.mp ((honly name).mpr rfl))
      have hrefined := (refinement?_eq_of_written ((honly name).mpr rfl)).trans hfound
      rw [slotType, hrefined, Except.ok.injEq] at hslot
      exact ⟨links, hlinks, honly, hrefined.trans hslot⟩
  · have hapart : ∀ links reached, g.ancestor? links = some reached →
        reached.mark ≠ (f.refine store.nextStamp name type).mark := by
      intro links reached hlinks hmark
      exact (hmarked.older (hreachesG hlinks)).ne (congrArg Prod.fst hmark)
    refine ⟨_, _, run_refine hf forest types name type, ?_, fun hne => ?_, hapart, ?_⟩
    · rw [FlowStore.put, Std.ExtTreeMap.getElem?_insert_self]
    · rw [FlowStore.put, Std.ExtTreeMap.getElem?_insert,
        if_neg fun heq => hne (Std.LawfulEqCmp.eq_of_compare heq).symm]
      exact hg
    · rw [Option.eq_none_iff_forall_ne_some]
      rintro ⟨found, foundType⟩ hsome
      obtain ⟨links, hlinks, _⟩ := uniqueRefinement?_eq_some_iff.mp hsome
      exact hapart links _ hlinks rfl

private def refinedTwice : List FlowStep :=
  [.entry ⟨0⟩ "start", .child "start" "once", .refine "once" ⟨5⟩ ⟨0⟩, .child "once" "twice",
    .refine "twice" ⟨5⟩ ⟨1⟩, .child "twice" "end"]

theorem uniqueRefinement?_exact_of_refinedTwice :
    let forest := Forest.ofRoot .initial ⟨0⟩
    let store := (FlowStore.after forest (.empty, TypeTable.basic) refinedTwice).1
    ∃ start reached, store.flows["start"]? = some start ∧ store.flows["end"]? = some reached ∧
      (∃ links below, reached.ancestor? links = some below ∧ below.mark = start.mark ∧
        OnlyWritten (reached.layers.take links) ⟨5⟩ ∧
        reached.slotType forest ⟨5⟩ = .ok (some ⟨1⟩)) ∧
      reached.searchUnique (·.slots.keys.reverse) start = some (⟨5⟩, ⟨1⟩) ∧
      ∃ written later,
        (store.perform forest (.refine "start" ⟨6⟩ ⟨2⟩)).run.run TypeTable.basic =
          (.ok (written, later), TypeTable.basic) ∧
        later.flows["end"]? = some reached ∧ reached.uniqueRefinement? written = none := by
  intro forest store
  have hcomputed : (store.flows["start"]?.any fun start => store.flows["end"]?.any fun reached =>
      reached.uniqueRefinement? start = some (⟨5⟩, ⟨1⟩)) = true := by decide +kernel
  obtain ⟨start, hstart, hinner⟩ := (Option.any_eq_true _ _).mp hcomputed
  obtain ⟨reached, hend, hunique⟩ := (Option.any_eq_true _ _).mp hinner
  have hunique := of_decide_eq_true hunique
  have hreached := reachable_after forest TypeTable.basic refinedTwice
  obtain ⟨hexact, horders, _⟩ := hreached.uniqueRefinement?_exact hend hstart
  obtain ⟨_, _, hwrite⟩ := hreached.uniqueRefinement?_exact hstart hend
  obtain ⟨written, later, hrun, _, hkept, _, hnone⟩ := hwrite forest TypeTable.basic ⟨6⟩ ⟨2⟩
  refine ⟨start, reached, hstart, hend, (hexact forest ⟨5⟩ ⟨1⟩).mp hunique, ?_, written, later, hrun,
    hkept (by decide), hnone⟩
  rw [horders _ fun layer _ name => by simp, hunique]

end FlowStore
end FlowTyping
