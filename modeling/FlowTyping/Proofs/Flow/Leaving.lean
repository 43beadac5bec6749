import FlowTyping.Proofs.Flow.Agreement
import FlowTyping.Proofs.Flow.Flat
import FlowTyping.Proofs.Flow.ScopeChange
import FlowTyping.TypeLattice.Structural

/-!
# Leaving nested scopes

Each scope that is left takes away the refinements of the names that it gives a meaning of its own.
A name without a dot that means the same at both ends of a way outwards means it all along the way,
so what is left at the end does not depend on where the way has stopped.
-/
namespace FlowTyping.Flow
open TypeLattice
variable {forest : Forest} {flow made : Flow} {target : ScopeId} {name : Name} {stamp : Nat}

/-- The flow scope after it was taken to several scopes in turn, each time under a stamp. -/
def enterAll (flow : Flow) (forest : Forest) (stops : List (Nat × ScopeId)) : Except Fault Flow :=
  stops.foldlM (fun flow stop => flow.enter stop.1 forest stop.2) flow

def Outwards (forest : Forest) (scopes : List ScopeId) : Prop :=
  scopes.IsChain fun inner outer => outer ∈ forest.path inner

instance (forest : Forest) (scopes : List ScopeId) : Decidable (Outwards forest scopes) :=
  inferInstanceAs (Decidable (List.IsChain _ scopes))

theorem Outwards.lt_size {start : ScopeId} {scopes : List ScopeId}
    (hway : Outwards forest (start :: scopes)) (hscopes : scopes ≠ []) :
    start.raw < forest.scopes.size := by
  obtain ⟨next, rest, rfl⟩ := List.exists_cons_of_ne_nil hscopes
  exact Forest.lt_size_of_mem_path (List.isChain_cons_cons.mp hway).1

/-- A flow scope in a scope around that of another one, with the refinements of the other one whose
names mean the same in both scopes. -/
structure LeftOf (forest : Forest) (flow made : Flow) : Prop where
  mem_path : made.scope ∈ forest.path flow.scope
  refinement : ∀ name, made.refinement? name =
    if forest.meaning? flow.scope name = forest.meaning? made.scope name then flow.refinement? name
    else none

theorem leftOf_self (hscope : flow.scope.raw < forest.scopes.size) : LeftOf forest flow flow :=
  ⟨Forest.mem_path_self hscope, fun _ => (if_pos rfl).symm⟩

theorem leftOf_of_enter (hforest : forest.Sound) (htarget : target ∈ forest.path flow.scope)
    (hmade : flow.enter stamp forest target = .ok made) : LeftOf forest flow made := by
  have hscope := scope_of_enter hmade
  refine ⟨hscope ▸ htarget, fun name => ?_⟩
  rw [(refinement?_of_enter hforest hmade name).2, hscope]

/-- What is left refines no other names. -/
theorem LeftOf.mem_slotNames (hleft : LeftOf forest flow made) (hname : name ∈ made.slotNames) :
    name ∈ flow.slotNames := by
  rw [Flow.mem_slotNames, hleft.refinement] at hname
  rw [Flow.mem_slotNames]
  split at hname
  next => exact hname
  next => cases hname

/-- What is left of what is left is what is left at once: no name changes its meaning back. -/
theorem LeftOf.trans {last : Flow} (hforest : forest.Sound)
    (hsimple : ∀ name ∈ flow.slotNames, forest.Simple name) (hfirst : LeftOf forest flow made)
    (hrest : LeftOf forest made last) : LeftOf forest flow last := by
  refine ⟨hforest.mem_path_trans hfirst.mem_path hrest.mem_path, fun name => ?_⟩
  rw [hrest.refinement, hfirst.refinement]
  cases hrefined : flow.refinement? name with
  | none => simp only [ite_self]
  | some type =>
    have hname := Flow.mem_slotNames_of_some hrefined
    by_cases hsame : forest.meaning? flow.scope name = forest.meaning? last.scope name
    · have hbetween := hforest.meaning?_convex (hsimple name hname) hfirst.mem_path
        hrest.mem_path hsame
      rw [if_pos hbetween, if_pos (hsame.trans hbetween.symm), if_pos hsame]
    · rw [if_neg hsame]
      by_cases hlater : forest.meaning? made.scope name = forest.meaning? last.scope name
      · rw [if_pos hlater, if_neg (hlater ▸ hsame)]
      · rw [if_neg hlater]

/-- What a flow scope leaves depends on where it is left, and not on the way there. -/
theorem LeftOf.refinement?_eq {other : Flow} (hleft : LeftOf forest flow made)
    (hother : LeftOf forest flow other) (hscope : made.scope = other.scope) (name : Name) :
    made.refinement? name = other.refinement? name := by
  rw [hleft.refinement, hother.refinement, hscope]

/-- All of a way can be gone, and leaves what its end leaves. -/
theorem exists_enterAll (hforest : forest.Sound) (hscope : flow.scope.raw < forest.scopes.size)
    (hsimple : ∀ name ∈ flow.slotNames, forest.Simple name) {stops : List (Nat × ScopeId)}
    (hway : Outwards forest (flow.scope :: stops.map Prod.snd)) :
    ∃ made, flow.enterAll forest stops = .ok made ∧ LeftOf forest flow made ∧
      made.scope = (stops.map Prod.snd).getLastD flow.scope := by
  induction stops generalizing flow with
  | nil => exact ⟨flow, rfl, leftOf_self hscope, rfl⟩
  | cons stop stops ih =>
    rw [List.map_cons, Outwards, List.isChain_cons_cons] at hway
    obtain ⟨hstop, hway⟩ := hway
    have hsize := (hforest.mem_path_facts hstop).1
    have hplaced : flow.Placed forest := ⟨hscope, fun name hname => (hsimple name hname).interned⟩
    obtain ⟨entered, hentered⟩ := hplaced.exists_enter hforest hsize stop.1
    have hat := scope_of_enter hentered
    have hfirst := leftOf_of_enter hforest hstop hentered
    obtain ⟨made, hmade, hrest, hend⟩ := ih (hat ▸ hsize)
      (fun name hname => hsimple name (hfirst.mem_slotNames hname)) (hat ▸ hway)
    refine ⟨made, ?_, hfirst.trans hforest hsimple hrest, ?_⟩
    · rw [enterAll, List.foldlM_cons, hentered]
      exact hmade
    · rw [hend, hat, List.map_cons, List.getLastD_cons]

/-- Leaving scopes one at a time and leaving them at once leaves the same refinements in the same
scope, so the same answers. -/
theorem enterAll_agrees_enter (hforest : forest.Built)
    (hsimple : ∀ name ∈ flow.slotNames, forest.Simple name) (stops : List (Nat × ScopeId))
    (hway : Outwards forest (flow.scope :: (stops.map Prod.snd ++ [target]))) (last stamp : Nat) :
    ∃ inTurn atOnce, flow.enterAll forest (stops ++ [(last, target)]) = .ok inTurn ∧
      flow.enter stamp forest target = .ok atOnce ∧
      inTurn.scope = target ∧ atOnce.scope = target ∧
      inTurn.slotNames = atOnce.slotNames ∧
      (∀ name, forest.Interned name → ∃ slot,
        inTurn.slotType forest name = .ok slot ∧ atOnce.slotType forest name = .ok slot) ∧
      ∀ {Λ : Type} [TypeLattice Λ] (types : Λ), (∀ type, sameType types type type = true) →
        agrees types forest inTurn atOnce = .ok true ∧
          agrees types forest atOnce inTurn = .ok true := by
  have hsound := hforest.sound
  have hscope := hway.lt_size (List.concat_ne_nil target (stops.map Prod.snd))
  have hstops : (stops ++ [(last, target)]).map Prod.snd = stops.map Prod.snd ++ [target] :=
    List.map_append
  obtain ⟨inTurn, hinTurn, hleft, hend⟩ := exists_enterAll hsound hscope hsimple (hstops ▸ hway)
  rw [hstops, List.getLastD_concat] at hend
  have htarget : target ∈ forest.path flow.scope := hend ▸ hleft.mem_path
  have hsize : target.raw < forest.scopes.size := (hsound.mem_path_facts htarget).1
  have hplaced : flow.Placed forest := ⟨hscope, fun name hname => (hsimple name hname).interned⟩
  obtain ⟨atOnce, hatOnce⟩ := hplaced.exists_enter hsound hsize stamp
  have hend' := scope_of_enter hatOnce
  have hsame : inTurn.scope = atOnce.scope := hend.trans hend'.symm
  have hrefinement := hleft.refinement?_eq (leftOf_of_enter hsound htarget hatOnce) hsame
  refine ⟨inTurn, atOnce, hinTurn, hatOnce, hend, hend', ?_, fun name hname => ?_,
    fun types hself => ⟨?_, ?_⟩⟩
  · refine congrArg Std.ExtTreeMap.keys (refinements_eq_iff.mpr fun name => ?_)
    rw [hrefinement, getElem?_refinements]
  · have hslot := slotType_eq hsound (hend ▸ hsize : inTurn.scope.raw < _) hname
    exact ⟨_, hslot, ((twins_of_refinements hsame hrefinement).slots name).symm.trans hslot⟩
  · exact agrees_of_refinement hself hsame (hend ▸ hsize) hrefinement
  · exact agrees_of_refinement hself hsame.symm (hend' ▸ hsize) fun name => (hrefinement name).symm

/-- A block in a block. Globally and in both blocks there is an `a`; that of the outer block has a
property, and only there is a `c`. -/
private def nested : Forest :=
  (Forest.ofRoot .initial ⟨0⟩).after
    [.declare ⟨0⟩ (.spelled "a") ⟨none, none, none, false⟩,
      .addScope ⟨0⟩ ⟨1⟩ .block [] none, .declare ⟨1⟩ (.spelled "a") ⟨none, none, none, false⟩,
      .declare ⟨1⟩ (.spelled "a.b") ⟨none, none, none, false⟩,
      .declare ⟨1⟩ (.spelled "c") ⟨none, none, none, false⟩,
      .addScope ⟨1⟩ ⟨2⟩ .block [] none, .declare ⟨2⟩ (.spelled "a") ⟨none, none, none, false⟩,
      .intern (.spelled "d")]

private def knowing : {flow : Flow // ∀ name ∈ flow.slotNames, nested.Simple name} :=
  ⟨(((entry 0 ⟨2⟩).refine 1 ⟨5⟩ ⟨0⟩).refine 2 ⟨7⟩ ⟨0⟩).refine 3 ⟨8⟩ ⟨0⟩, by
    rw [← Forest.requireSimple_eq_ok_iff]
    decide +kernel⟩

theorem enterAll_agrees_enter_of_nested :
    nested.Built ∧ (∀ name ∈ knowing.val.slotNames, nested.Simple name) ∧
    Outwards nested [⟨2⟩, ⟨1⟩, ⟨0⟩] ∧
    ∃ inTurn atOnce, knowing.val.enterAll nested [(4, ⟨1⟩), (5, ⟨0⟩)] = .ok inTurn ∧
      knowing.val.enter 6 nested ⟨0⟩ = .ok atOnce ∧ atOnce.slotNames = [⟨8⟩] ∧
      inTurn.slotNames = [⟨8⟩] ∧
      agrees TypeTable.basic nested inTurn atOnce = .ok true := by
  have hbuilt : nested.Built := ⟨⟨0⟩, _, rfl⟩
  have hway : Outwards nested [⟨2⟩, ⟨1⟩, ⟨0⟩] := by decide +kernel
  obtain ⟨inTurn, atOnce, hinTurn, hatOnce, _, _, hnames, _, hagrees⟩ :=
    enterAll_agrees_enter hbuilt knowing.property [(4, ⟨1⟩)] hway 5 6
  have hleft : knowing.val.enter 6 nested ⟨0⟩ =
      .ok (overEntry 6 ⟨0⟩ (Std.ExtTreeMap.insert ∅ ⟨8⟩ ⟨0⟩)) := by decide +kernel
  obtain rfl := Except.ok.inj (hleft.symm.trans hatOnce)
  exact ⟨hbuilt, knowing.property, hway, inTurn, _, hinTurn, hatOnce, by decide +kernel,
    hnames.trans (by decide +kernel), (hagrees TypeTable.basic fun type => by simp [sameType]).1⟩

-- For names with a dot the way matters. A property that the inner `a` does not have and the outer
-- one has is forgotten on the way, and kept by a flow scope that goes past the outer block.
example :
    let flow := (entry 0 ⟨2⟩).refine 1 ⟨6⟩ ⟨0⟩
    slotNames <$> flow.enterAll nested [(2, ⟨1⟩), (3, ⟨0⟩)] = .ok [] ∧
      slotNames <$> flow.enter 2 nested ⟨0⟩ = .ok [⟨6⟩] := by
  decide +kernel

end FlowTyping.Flow
