import FlowTyping.Flow.Comparison
import FlowTyping.Proofs.Flow.Seen

/-!
# Agreement in one scope

Flow scopes of one scope can differ only in what they refine, and agreement asks only for the names
that are refined. Any other name has its declared type in both. So flow scopes of one scope agree if
they answer alike for every name, whichever of them refines it.
-/
namespace FlowTyping.Flow
open TypeLattice
variable {Λ : Type} [TypeLattice Λ] {types : Λ} {forest : Forest} {table : TypeTable} {f g : Flow}
  {name : Name}

/-- Flow scopes of one scope that answer alike for every name. -/
structure Twins (forest : Forest) (f g : Flow) : Prop where
  scope : f.scope = g.scope
  slots : ∀ name, f.slotType forest name = g.slotType forest name

theorem Twins.refl (f : Flow) : Twins forest f f := ⟨rfl, fun _ => rfl⟩

theorem Twins.symm (htwins : Twins forest f g) : Twins forest g f :=
  ⟨htwins.scope.symm, fun name => (htwins.slots name).symm⟩

theorem Twins.trans {h : Flow} (hfg : Twins forest f g) (hgh : Twins forest g h) :
    Twins forest f h :=
  ⟨hfg.scope.trans hgh.scope, fun name => (hfg.slots name).trans (hgh.slots name)⟩

theorem twins_of_refinements (hscope : f.scope = g.scope)
    (hrefinements : ∀ name, f.refinement? name = g.refinement? name) : Twins forest f g :=
  ⟨hscope, fun name => by rw [slotType, slotType, hrefinements, hscope]⟩

theorem slotType_of_refined {type : TypeId} (hrefined : f.refinement? name = some type) :
    f.slotType forest name = .ok (some type) := by
  rw [slotType, hrefined]

theorem slotType_of_unrefined (hrefined : f.refinement? name = none) :
    f.slotType forest name = forest.declaredType f.scope name := by
  rw [slotType, hrefined]

theorem exists_slotType_of_mem (hname : name ∈ f.slotNames) :
    ∃ slot, f.slotType forest name = .ok slot := by
  obtain ⟨type, htype⟩ := Option.isSome_iff_exists.mp (mem_slotNames.mp hname)
  exact ⟨some type, slotType_of_refined htype⟩

/-- What is refined in neither of two flow scopes of one scope has its declared type in both. -/
theorem slotType_eq_of_not_mem (hscope : f.scope = g.scope)
    (hname : ¬(name ∈ f.slotNames ∨ name ∈ g.slotNames)) :
    f.slotType forest name = g.slotType forest name := by
  rw [not_or, mem_slotNames, mem_slotNames, Option.not_isSome_iff_eq_none,
    Option.not_isSome_iff_eq_none] at hname
  rw [slotType_of_unrefined hname.1, slotType_of_unrefined hname.2, hscope]

theorem effective?_of_slotType {slot : Option TypeId} (hslot : f.slotType forest name = .ok slot) :
    f.effective? forest name = slot := by
  unfold effective?
  cases hrefined : f.refinement? name with
  | some type =>
    rw [slotType_of_refined hrefined] at hslot
    exact Except.ok.inj hslot
  | none =>
    rw [slotType_of_unrefined hrefined] at hslot
    have htells := Forest.tells_of_declaredType hslot
    exact Except.ok.inj (htells.declaredType_eq.symm.trans hslot)

theorem Twins.effective (htwins : Twins forest f g) (name : Name) :
    f.effective? forest name = g.effective? forest name := by
  have hslots := htwins.slots name
  cases hslot : f.slotType forest name with
  | ok slot =>
    rw [effective?_of_slotType hslot, effective?_of_slotType (hslots.symm.trans hslot)]
  | error fault =>
    -- Where there is no answer, the name is refined in neither.
    have hunrefined : ∀ flow : Flow, flow.slotType forest name = .error fault →
        flow.effective? forest name = forest.declared? flow.scope name := by
      intro flow hfault
      cases hrefined : flow.refinement? name with
      | none => rw [effective?, hrefined, Option.none_or]
      | some type =>
        rw [slotType_of_refined hrefined] at hfault
        cases hfault
    rw [hunrefined f hslot, hunrefined g (hslots.symm.trans hslot), htwins.scope]

/-- The effective type of a name, however its refinement is looked up. -/
theorem effectiveType_refinements (forest : Forest) (flow : Flow) (name : Name) :
    effectiveType forest flow.scope flow.refinements name = flow.slotType forest name := by
  unfold effectiveType slotType
  cases hrefined : flow.refinement? name <;> simp only [getElem?_refinements, hrefined]

theorem agrees_self (types : Λ) (forest : Forest) (flow : Flow) :
    agrees types forest flow flow = .ok true := by
  rw [agrees, if_pos rfl]
  rfl

private theorem agrees_eq_allM (hscope : f.scope = g.scope)
    (hsize : f.scope.raw < forest.scopes.size) (hne : f ≠ g) :
    agrees types forest f g = (f.slotNames ++ g.slotNames).allM fun name => do
      return sameSlots types (← f.slotType forest name) (← g.slotType forest name) := by
  have hbottom : g.isBottom forest = f.isBottom forest := by
    rw [isBottom, isBottom, hscope]
  unfold agrees
  rw [if_neg hne, hbottom, isBottom_eq hsize]
  simp only [effectiveType_refinements, slotNames, Except.ok_bind, bne_self_eq_false,
    Bool.false_eq_true, if_false, if_pos hscope]
  generalize (List.allM _ (f.refinements.keys ++ g.refinements.keys) : Except Fault Bool) = answer
  cases answer with
  | error fault => rfl
  | ok same => cases same <;> rfl

theorem sameSlots_self (hself : ∀ type, sameType types type type = true) (slot : Option TypeId) :
    sameSlots types slot slot = true := by
  cases slot with
  | none => rfl
  | some type => exact hself type

/-- Flow scopes of one scope that refine the same slots alike agree, whatever their names are. -/
theorem agrees_of_refinement (hself : ∀ type, sameType types type type = true)
    (hscope : f.scope = g.scope) (hsize : f.scope.raw < forest.scopes.size)
    (hrefinement : ∀ name, f.refinement? name = g.refinement? name) :
    agrees types forest f g = .ok true := by
  by_cases hsame : f = g
  · subst hsame
    exact agrees_self types forest f
  rw [agrees_eq_allM hscope hsize hsame, Except.allM_eq_ok_true_iff]
  intro name hname
  have hrefined : ∃ type, f.refinement? name = some type := by
    rw [← Option.isSome_iff_exists]
    rcases List.mem_append.mp hname with hname | hname
    · exact mem_slotNames.mp hname
    · rw [hrefinement]
      exact mem_slotNames.mp hname
  obtain ⟨type, htype⟩ := hrefined
  rw [slotType_of_refined htype, slotType_of_refined (hrefinement name ▸ htype)]
  exact congrArg Except.ok (sameSlots_self hself _)

private theorem sameSlots_eq_ok_true_iff {first second : Except Fault (Option TypeId)} :
    (do return sameSlots table (← first) (← second)) = Except.ok true ↔
      ∃ slot, first = .ok slot ∧ second = .ok slot := by
  cases first <;> cases second <;> simp [TypeTable.sameSlots_eq, eq_comm]

/-- Flow scopes of one scope agree if they are twins. -/
theorem agrees_iff_twins (hscope : f.scope = g.scope) (hsize : f.scope.raw < forest.scopes.size) :
    agrees table forest f g = .ok true ↔ Twins forest f g := by
  by_cases hsame : f = g
  · subst hsame
    exact iff_of_true (agrees_self table forest f) (.refl f)
  rw [agrees_eq_allM hscope hsize hsame, Except.allM_eq_ok_true_iff]
  constructor
  · intro hasked
    refine ⟨hscope, fun name => ?_⟩
    by_cases hname : name ∈ f.slotNames ++ g.slotNames
    · obtain ⟨slot, hf, hg⟩ := sameSlots_eq_ok_true_iff.mp (hasked name hname)
      rw [hf, hg]
    · exact slotType_eq_of_not_mem hscope (mt List.mem_append.mpr hname)
  · intro htwins name hname
    rw [sameSlots_eq_ok_true_iff]
    have hslots := htwins.slots name
    rcases List.mem_append.mp hname with hname | hname
    · obtain ⟨slot, hslot⟩ := exists_slotType_of_mem hname
      exact ⟨slot, hslot, hslots.symm.trans hslot⟩
    · obtain ⟨slot, hslot⟩ := exists_slotType_of_mem hname
      exact ⟨slot, hslots.trans hslot, hslot⟩

theorem Twins.agrees (htwins : Twins forest f g) (hsize : f.scope.raw < forest.scopes.size) :
    agrees table forest f g = .ok true ∧ agrees table forest g f = .ok true :=
  ⟨(agrees_iff_twins htwins.scope hsize).mpr htwins,
    (agrees_iff_twins htwins.scope.symm (htwins.scope ▸ hsize)).mpr htwins.symm⟩

/-- Flow scopes of one scope with the same effective types are twins, if it can be told what the
names mean that they refine. -/
theorem twins_of_tells (hscope : f.scope = g.scope)
    (htells : ∀ name, name ∈ f.slotNames ∨ name ∈ g.slotNames → forest.Tells f.scope name)
    (heffective : ∀ name, f.effective? forest name = g.effective? forest name) :
    Twins forest f g := by
  refine ⟨hscope, fun name => ?_⟩
  by_cases hname : name ∈ f.slotNames ∨ name ∈ g.slotNames
  · have htold := htells name hname
    rw [slotType_of_tells htold, slotType_of_tells (hscope ▸ htold), heffective]
  · exact slotType_eq_of_not_mem hscope hname

theorem twins_of_effective (hforest : forest.Sound) (hf : f.Placed forest) (hg : g.Placed forest)
    (hscope : f.scope = g.scope)
    (heffective : ∀ name, f.effective? forest name = g.effective? forest name) :
    Twins forest f g :=
  twins_of_tells hscope
    (fun name hname => hforest.tells hf.scope (hname.elim (hf.names name) (hg.names name)))
    heffective

theorem agrees_of_tells (hscope : f.scope = g.scope) (hsize : f.scope.raw < forest.scopes.size)
    (htells : ∀ name, name ∈ f.slotNames ∨ name ∈ g.slotNames → forest.Tells f.scope name)
    (heffective : ∀ name, f.effective? forest name = g.effective? forest name) :
    agrees table forest f g = .ok true :=
  (agrees_iff_twins hscope hsize).mpr (twins_of_tells hscope htells heffective)

theorem agrees_of_effective (hforest : forest.Sound)
    (hf : ∀ name ∈ f.slotNames, forest.Interned name)
    (hg : ∀ name ∈ g.slotNames, forest.Interned name)
    (hsize : f.scope.raw < forest.scopes.size) (hscope : f.scope = g.scope)
    (heffective : ∀ name, f.effective? forest name = g.effective? forest name) :
    agrees table forest f g = .ok true :=
  agrees_of_tells hscope hsize
    (fun name hname => hforest.tells hsize (hname.elim (hf name) (hg name))) heffective

/-- Between flow scopes of one scope with spelled names agreement always has an answer. -/
theorem Placed.exists_agrees (hforest : forest.Sound) (hf : f.Placed forest) (hg : g.Placed forest)
    (hscope : f.scope = g.scope) (table : TypeTable) :
    ∃ answer, agrees table forest f g = .ok answer := by
  by_cases hsame : f = g
  · subst hsame
    exact ⟨true, agrees_self table forest f⟩
  rw [agrees_eq_allM hscope hf.scope hsame]
  refine ⟨_, Except.allM_eq_all (fun name =>
    sameSlots table (f.effective? forest name) (g.effective? forest name)) fun name hname => ?_⟩
  have hspelled := (List.mem_append.mp hname).elim (hf.names name) (hg.names name)
  rw [slotType_eq hforest hf.scope hspelled, slotType_eq hforest hg.scope hspelled]
  rfl

end FlowTyping.Flow
