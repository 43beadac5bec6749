import FlowTyping.Proofs.Flow.Reachable
import FlowTyping.Proofs.Flow.Seen
import FlowTyping.Proofs.Flow.Writes
import FlowTyping.Proofs.Forest.Root

/-!
# Effective types across a change of scope

Taken to another scope, a flow scope has for every name what it contributes there: its own type if
the name means the same, or else the declared type. A name that means nothing in either scope counts
as the same name, and so do the names of properties that are nowhere declared, whatever becomes of
the root that they belong to. The chain of layers is continued as it is if all names that it refines
mean the same, and only then.
-/
namespace FlowTyping.Flow
variable {forest : Forest} {flow made : Flow} {target : ScopeId} {name root : Name} {stamp : Nat}

theorem Placed.exists_enter (hforest : forest.Sound) (hflow : flow.Placed forest)
    (htarget : target.raw < forest.scopes.size) (stamp : Nat) :
    ∃ entered, flow.enter stamp forest target = .ok entered := by
  have hflat := flow.flat_enter stamp forest target
  rw [← flat_refinementsIn, hflow.refinementsIn_eq hforest htarget] at hflat
  cases hentered : flow.enter stamp forest target with
  | error fault =>
    rw [hentered] at hflat
    cases hflat
  | ok entered => exact ⟨entered, rfl⟩

theorem scope_of_enter (hmade : flow.enter stamp forest target = .ok made) :
    made.scope = target := by
  obtain ⟨_, _, hflat⟩ := flat_of_enter hmade
  exact congrArg Flat.scope hflat

/-- A change of scope keeps the refinements of the names that mean the same in the new scope. -/
theorem refinement?_of_enter (hforest : forest.Sound)
    (hmade : flow.enter stamp forest target = .ok made) (name : Name) :
    made.scope = target ∧ made.refinement? name =
      if forest.meaning? flow.scope name = forest.meaning? target name then flow.refinement? name
      else none := by
  obtain ⟨slots, hslots, hflat⟩ := flat_of_enter hmade
  have hrefinements : made.refinements = slots := congrArg Flat.slots hflat
  refine ⟨scope_of_enter hmade, ?_⟩
  rw [← getElem?_refinements, hrefinements, eq_visible_of_refinementsIn hforest hslots,
    getElem?_visible]

/-- What a flow scope contributes to another scope is what it has there. -/
theorem effective?_of_enter (hforest : forest.Sound)
    (hmade : flow.enter stamp forest target = .ok made) (name : Name) :
    made.effective? forest name = flow.seen? forest target name := by
  obtain ⟨hscope, hrefinement⟩ := refinement?_of_enter hforest hmade name
  rw [effective?, hrefinement, hscope, ← getElem?_visible, visible_or_declared]

/-- The chain is continued as it is if all names that it refines mean the same in the new scope. -/
theorem eq_push_of_enter_iff (hmade : flow.enter stamp forest target = .ok made) :
    made = flow.push stamp target ↔
      ∀ name ∈ flow.slotNames, forest.sameBinding flow.scope target name = .ok true := by
  have hall : ∀ kept, flow.refinementsIn forest target = .ok kept → (kept = flow.refinements ↔
      ∀ name ∈ flow.slotNames, forest.sameBinding flow.scope target name = .ok true) := by
    intro kept hkept
    rw [Slots.eq_iff_of_retain hkept, slotNames]
    simp only [Std.ExtTreeMap.mem_keys]
  rcases enter_cases hmade with ⟨rfl, hsame | hkept⟩ | ⟨hne, kept, hkept, hsize, rfl⟩
  · refine iff_of_true rfl fun name _ => ?_
    rw [hsame, Forest.sameBinding_self]
  · exact iff_of_true rfl ((hall _ hkept).mp rfl)
  · -- The two chains differ in the scope of the layer below the top.
    rw [← hall kept hkept]
    refine iff_of_false (fun hpush => hne ?_) (mt (congrArg Std.ExtTreeMap.size) hsize)
    exact congrArg Layer.scope (List.cons.inj (congrArg Flow.below hpush)).1

/-- In another scope, a flow scope has its own types for the names that mean the same there and the
declared types for all others, whether its chain is continued as it is or built anew. It is
continued exactly if all names that it refines mean the same. -/
theorem slotType_of_enter (hforest : forest.Built) (hflow : flow.Placed forest)
    (htarget : target.raw < forest.scopes.size) (stamp : Nat) :
    ∃ entered, flow.enter stamp forest target = .ok entered ∧ entered.scope = target ∧
      (∀ name, forest.Interned name → ∃ same slot,
        forest.sameBinding flow.scope target name = .ok same ∧
        entered.slotType forest name = .ok slot ∧
        (if same then flow.slotType forest name else forest.declaredType target name) = .ok slot) ∧
      (entered = flow.push stamp target ∨ ∃ kept, entered = overEntry stamp target kept) ∧
      (entered = flow.push stamp target ↔
        ∀ name ∈ flow.slotNames, forest.sameBinding flow.scope target name = .ok true) := by
  have hsound := hforest.sound
  obtain ⟨entered, hentered⟩ := hflow.exists_enter hsound htarget stamp
  have hscope := scope_of_enter hentered
  refine ⟨entered, hentered, hscope, fun name hname => ?_, ?_, eq_push_of_enter_iff hentered⟩
  · have hcontribution := contribution_eq hsound hflow.scope htarget hname
    rw [contribution, hsound.sameBinding_eq hflow.scope htarget hname, Except.ok_bind]
      at hcontribution
    refine ⟨_, _, hsound.sameBinding_eq hflow.scope htarget hname, ?_, hcontribution⟩
    rw [slotType_eq hsound (hscope ▸ htarget) hname, effective?_of_enter hsound hentered]
  · rcases enter_cases hentered with ⟨hpush, _⟩ | ⟨_, kept, _, _, hbuilt⟩
    · exact .inl hpush
    · exact .inr ⟨kept, hbuilt⟩

/-- Where the root of a qualified name changes its meaning with the scope, the name has its declared
type in the new scope, unless it is refined and means nothing in either scope. Then the refinement
is kept. -/
theorem slotType_of_enter_of_root_ne (hforest : forest.Built)
    (hscope : flow.scope.raw < forest.scopes.size) (htarget : target.raw < forest.scopes.size)
    (hroot : forest.RootOf name root)
    (hdiffers : forest.resolve flow.scope root ≠ forest.resolve target root) (stamp : Nat) :
    ((∀ refined ∈ flow.slotNames, forest.Interned refined) →
      ∃ entered, flow.enter stamp forest target = .ok entered) ∧
    ∀ entered, flow.enter stamp forest target = .ok entered →
      ∃ declared, forest.declaredType target name = .ok declared ∧
        (flow.refinement? name = none ∨ forest.resolve flow.scope name ≠ .ok none ∨
            forest.resolve target name ≠ .ok none →
          entered.slotType forest name = .ok declared) ∧
        ∀ type, flow.refinement? name = some type → forest.resolve flow.scope name = .ok none →
          forest.resolve target name = .ok none →
            entered.slotType forest name = .ok (some type) := by
  have hsound := hforest.sound
  have hnames := hforest.names_sound
  have hname := hroot.interned
  have hrootName := (hroot.simple hnames).interned
  have hfrom := hsound.resolve_eq hscope hname
  have hto := hsound.resolve_eq htarget hname
  rw [hsound.resolve_eq hscope hrootName, hsound.resolve_eq htarget hrootName, ne_eq,
    Except.ok.injEq] at hdiffers
  refine ⟨fun hplaced => Placed.exists_enter hsound ⟨hscope, hplaced⟩ htarget stamp,
    fun entered hentered => ⟨forest.declared? target name, hsound.declaredType_eq htarget hname, ?_⟩⟩
  have hslot : entered.slotType forest name = .ok (flow.seen? forest target name) := by
    have hsize : entered.scope.raw < forest.scopes.size :=
      (refinement?_of_enter hsound hentered name).1 ▸ htarget
    rw [slotType_eq hsound hsize hname, effective?_of_enter hsound hentered]
  rw [hslot, seen?, hfrom, hto]
  by_cases hsame : forest.meaning? flow.scope name = forest.meaning? target name
  · have hnone := hsound.meaning?_eq_none_of_root_ne hnames hscope htarget hroot hdiffers hsame
    simp only [hsame, hnone, ne_eq, not_true_eq_false, or_false, forall_true_left, if_true,
      effective?, Forest.declared?]
    constructor
    · intro hrefinement
      rw [hrefinement, Option.none_or]
    · intro type htype
      rw [htype, Option.some_or]
  · rw [if_neg hsame]
    refine ⟨fun _ => rfl, fun type _ hnone hnone' => ?_⟩
    exact absurd ((Except.ok.inj hnone).trans (Except.ok.inj hnone').symm) hsame

/-- A block with an `a` of its own. The global `a` has a declared property, and another one that is
only spelled. -/
def masking : Forest :=
  (Forest.ofRoot .initial ⟨0⟩).after
    [.declare ⟨0⟩ (.spelled "a") ⟨none, none, none, false⟩,
      .declare ⟨0⟩ (.spelled "a.b") ⟨none, some ⟨2⟩, none, false⟩,
      .addScope ⟨0⟩ ⟨1⟩ .block [] none, .declare ⟨1⟩ (.spelled "a") ⟨none, none, none, false⟩,
      .intern (.spelled "a.c")]

/-- A point in the block where both properties of the inner `a` are known to be numbers. -/
def masked : Flow := ((entry 0 ⟨1⟩).refine 1 ⟨6⟩ ⟨0⟩).refine 2 ⟨7⟩ ⟨0⟩

theorem masking_built : masking.Built := ⟨⟨0⟩, _, rfl⟩

theorem masking_roots : masking.RootOf ⟨6⟩ ⟨5⟩ ∧ masking.RootOf ⟨7⟩ ⟨5⟩ :=
  ⟨⟨"a.b", "a", by decide +kernel⟩, ⟨"a.c", "a", by decide +kernel⟩⟩

private def maskedPoint : {flow : Flow // flow.Placed masking} :=
  ⟨masked, by decide +kernel, by decide +kernel⟩

theorem slotType_of_enter_of_masked :
    masked.Placed masking ∧
    ∃ entered, masked.enter 3 masking ⟨0⟩ = .ok entered ∧
      entered.slotType masking ⟨6⟩ = masking.declaredType ⟨0⟩ ⟨6⟩ ∧
      entered.slotType masking ⟨7⟩ = masked.slotType masking ⟨7⟩ ∧
      entered ≠ masked.push 3 ⟨0⟩ := by
  have hplaced : masked.Placed masking := maskedPoint.property
  obtain ⟨entered, hentered, _, hslots, _, hpush⟩ :=
    slotType_of_enter masking_built hplaced (by decide +kernel : 0 < masking.scopes.size) 3
  have hdrops : masking.sameBinding masked.scope ⟨0⟩ ⟨6⟩ = .ok false := by decide +kernel
  have hkeeps : masking.sameBinding masked.scope ⟨0⟩ ⟨7⟩ = .ok true := by decide +kernel
  refine ⟨hplaced, entered, hentered, ?_, ?_, fun hsame => ?_⟩
  · obtain ⟨same, slot, hsame, hslot, hlaw⟩ := hslots ⟨6⟩ (by decide +kernel)
    obtain rfl := Except.ok.inj (hdrops.symm.trans hsame)
    exact hslot.trans hlaw.symm
  · obtain ⟨same, slot, hsame, hslot, hlaw⟩ := hslots ⟨7⟩ (by decide +kernel)
    obtain rfl := Except.ok.inj (hkeeps.symm.trans hsame)
    exact hslot.trans hlaw.symm
  · have hall := hpush.mp hsame ⟨6⟩ (by decide +kernel)
    rw [hdrops] at hall
    cases hall

theorem slotType_of_enter_of_masking :
    masking.RootOf ⟨6⟩ ⟨5⟩ ∧ masking.RootOf ⟨7⟩ ⟨5⟩ ∧
    masking.resolve masked.scope ⟨5⟩ ≠ masking.resolve ⟨0⟩ ⟨5⟩ ∧
    ∃ entered, masked.enter 3 masking ⟨0⟩ = .ok entered ∧
      entered.slotType masking ⟨6⟩ = masking.declaredType ⟨0⟩ ⟨6⟩ ∧
      entered.slotType masking ⟨7⟩ = .ok (some ⟨0⟩) := by
  have hscope : masked.scope.raw < masking.scopes.size := by decide +kernel
  have htarget : (⟨0⟩ : ScopeId).raw < masking.scopes.size := by decide +kernel
  have hdiffers : masking.resolve masked.scope ⟨5⟩ ≠ masking.resolve ⟨0⟩ ⟨5⟩ := by decide +kernel
  obtain ⟨hdeclared, hspelled⟩ := masking_roots
  obtain ⟨hsucceeds, hlaw⟩ :=
    slotType_of_enter_of_root_ne masking_built hscope htarget hdeclared hdiffers 3
  obtain ⟨entered, hentered⟩ := hsucceeds (by decide +kernel)
  obtain ⟨type, htype, hslot, _⟩ := hlaw entered hentered
  obtain ⟨_, _, _, hkept⟩ :=
    (slotType_of_enter_of_root_ne masking_built hscope htarget hspelled hdiffers 3).2 entered hentered
  refine ⟨hdeclared, hspelled, hdiffers, entered, hentered, ?_, ?_⟩
  · rw [htype]
    exact hslot (.inr (.inr (by decide +kernel)))
  · exact hkept ⟨0⟩ (by decide +kernel) (by decide +kernel) (by decide +kernel)

/-- What is known of a property of the inner `a` is taken to be true of the global `a`, which is
another variable. -/
theorem enter_keeps_property_of_masked :
    masking.Built ∧ masking.RootOf ⟨7⟩ ⟨5⟩ ∧
    masking.resolve masked.scope ⟨5⟩ ≠ masking.resolve ⟨0⟩ ⟨5⟩ ∧
    ∃ entered, masked.enter 3 masking ⟨0⟩ = .ok entered ∧
      entered.slotType masking ⟨7⟩ = .ok (some ⟨0⟩) ∧ masking.declaredType ⟨0⟩ ⟨7⟩ = .ok none := by
  have hentered : masked.enter 3 masking ⟨0⟩ =
      .ok (overEntry 3 ⟨0⟩ (Std.ExtTreeMap.insert ∅ ⟨7⟩ ⟨0⟩)) := by decide +kernel
  exact ⟨masking_built, masking_roots.2, by decide +kernel, _, hentered, by decide +kernel,
    by decide +kernel⟩

end FlowTyping.Flow
