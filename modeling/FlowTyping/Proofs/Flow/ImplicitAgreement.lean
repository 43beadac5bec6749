import FlowTyping.Proofs.Flow.Agreement
import FlowTyping.Proofs.Flow.Implicit
import FlowTyping.Proofs.Forest.Faults

/-!
# Agreement and implicit variables

Agreement compares refinements with declared types, also under the name of an implicit variable. So
flow scopes of one scope can agree where one refines such a variable with the type that its name is
declared with, and the other does not refine it and synthesizes another type.
-/
namespace FlowTyping.Flow
open TypeLattice
variable {forest : Forest} {table : TypeTable} {f g : Flow} {var : Implicit}
  {synthesized : Option TypeId}

/-- A type is synthesized in scopes of the forest only. -/
theorem lt_size_of_synthesizedType {scope : ScopeId}
    (hsynthesized : forest.synthesizedType table scope var = .ok synthesized) :
    scope.raw < forest.scopes.size := by
  by_contra hscope
  rw [Forest.synthesizedType, (Forest.unknown_implicit hscope table var).2] at hsynthesized
  cases hsynthesized

/-- Twins refine a name alike, or only one of them does, with the declared type. -/
theorem Twins.refinement_cases {name : Name} {declared : Option TypeId}
    (htwins : Twins forest f g) (hdeclared : forest.declaredType f.scope name = .ok declared) :
    f.refinement? name = g.refinement? name ∨ ∃ type, declared = some type ∧
      (f.refinement? name = some type ∧ g.refinement? name = none ∨
        f.refinement? name = none ∧ g.refinement? name = some type) := by
  have hslots := htwins.slots name
  cases hf : f.refinement? name with
  | none =>
    cases hg : g.refinement? name with
    | none => exact .inl rfl
    | some type =>
      rw [slotType_of_unrefined hf, slotType_of_refined hg, hdeclared] at hslots
      exact .inr ⟨type, Except.ok.inj hslots, .inr ⟨rfl, rfl⟩⟩
  | some type =>
    rw [slotType_of_refined hf] at hslots
    cases hg : g.refinement? name with
    | none =>
      rw [slotType_of_unrefined hg, ← htwins.scope, hdeclared] at hslots
      exact .inr ⟨type, (Except.ok.inj hslots).symm, .inl ⟨rfl, rfl⟩⟩
    | some other =>
      rw [slotType_of_refined hg] at hslots
      exact .inl (Except.ok.inj hslots)

/-- Flow scopes of one scope that agree have the same type for an implicit variable, unless exactly
one of them refines it, and its name is declared with another type than the variable is synthesized
with. Then the one that refines it has the declared type, and the other has the synthesized one. -/
theorem implicitSlotType_of_agrees (hforest : forest.Built) (hscope : f.scope = g.scope)
    (hagrees : agrees table forest f g = .ok true)
    (hsynthesized : forest.synthesizedType table f.scope var = .ok synthesized) :
    ∃ declared slot other, forest.declaredType f.scope var.name = .ok declared ∧
      f.implicitSlotType forest table var = .ok slot ∧
      g.implicitSlotType forest table var = .ok other ∧
      (slot = other ↔ ((f.refinement? var.name).isSome ↔ (g.refinement? var.name).isSome) ∨
        synthesized = declared) ∧
      (slot ≠ other → declared ≠ none ∧
        ((f.refinement? var.name).isSome ∧ slot = declared ∧ other = synthesized ∨
          (g.refinement? var.name).isSome ∧ slot = synthesized ∧ other = declared)) := by
  have hsize := lt_size_of_synthesizedType hsynthesized
  have htwins := (agrees_iff_twins hscope hsize).mp hagrees
  have hdeclared := hforest.sound.declaredType_eq hsize (hforest.interned_implicit var)
  refine ⟨_, _, _, hdeclared, implicitSlotType_eq hsynthesized,
    implicitSlotType_eq (hscope ▸ hsynthesized), ?_⟩
  rcases htwins.refinement_cases hdeclared with hsame | ⟨type, htype, ⟨hf, hg⟩ | ⟨hf, hg⟩⟩
  · simp [hsame]
  · simp [htype, hf, hg, eq_comm]
  · simp [htype, hf, hg]

/-- A function in a program that has an extern variable `arguments`. The function declares a
variable of this name, too. -/
def rebinding : Forest :=
  (Forest.ofRoot .initial ⟨0⟩).after
    [.declare ⟨0⟩ (.spelled "arguments") ⟨none, some ⟨1⟩, some ⟨⟨1⟩, true⟩, false⟩,
      .addScope ⟨0⟩ ⟨1⟩ (.function false) [] none,
      .declare ⟨1⟩ (.spelled "arguments") ⟨none, some ⟨0⟩, none, false⟩]

/-- A point in the function where `arguments` is known to have the type it is declared with. -/
def redeclared : Flow := (entry 0 ⟨1⟩).refine 1 .arguments ⟨0⟩

theorem rebinding_built : rebinding.Built := ⟨⟨0⟩, _, rfl⟩

theorem implicitSlotType_of_agrees_of_redeclared :
    let unrefined := entry 2 ⟨1⟩
    agrees TypeTable.basic rebinding redeclared unrefined = .ok true ∧
    rebinding.synthesizedType TypeTable.basic redeclared.scope .arguments = .ok (some ⟨1⟩) ∧
    ∃ declared slot other, rebinding.declaredType redeclared.scope .arguments = .ok declared ∧
      redeclared.implicitSlotType rebinding TypeTable.basic .arguments = .ok slot ∧
      unrefined.implicitSlotType rebinding TypeTable.basic .arguments = .ok other ∧
      slot ≠ other ∧ declared ≠ none ∧ slot = declared ∧ other = some ⟨1⟩ := by
  intro unrefined
  have hscope : redeclared.scope = unrefined.scope := rfl
  have hagrees : agrees TypeTable.basic rebinding redeclared unrefined = .ok true := by
    decide +kernel
  have harguments : rebinding.synthesizedType TypeTable.basic redeclared.scope .arguments =
      .ok (some ⟨1⟩) := by decide +kernel
  obtain ⟨declared, slot, other, hdeclared, hslot, hother, hiff, hcases⟩ :=
    implicitSlotType_of_agrees rebinding_built hscope hagrees harguments
  have hown : rebinding.declaredType redeclared.scope .arguments = .ok (some ⟨0⟩) := by
    decide +kernel
  obtain rfl := Except.ok.inj (hown.symm.trans hdeclared)
  have hne : slot ≠ other := mt hiff.mp (by decide +kernel)
  obtain ⟨hsome, ⟨_, hdeclared', hsynthesized⟩ | ⟨hrefined, _⟩⟩ := hcases hne
  · exact ⟨hagrees, harguments, _, slot, other, hdeclared, hslot, hother, hne, hsome, hdeclared',
      hsynthesized⟩
  · exact absurd hrefined (by decide +kernel)

/-- The two points agree, although `arguments` has the declared type at the one and the type of the
extern variable at the other. -/
theorem agrees_overlooks_arguments :
    let unrefined := entry 2 ⟨1⟩
    rebinding.Built ∧ TypeTable.basic.Built ∧ rebinding.Live redeclared.scope ∧
    redeclared.scope = unrefined.scope ∧
    agrees TypeTable.basic rebinding redeclared unrefined = .ok true ∧
    rebinding.synthesizedType TypeTable.basic redeclared.scope .arguments = .ok (some ⟨1⟩) ∧
    redeclared.implicitSlotType rebinding TypeTable.basic .arguments = .ok (some ⟨0⟩) ∧
    unrefined.implicitSlotType rebinding TypeTable.basic .arguments = .ok (some ⟨1⟩) :=
  ⟨rebinding_built, .basic, isReachable_iff.mp (by decide +kernel), rfl, by decide +kernel,
    by decide +kernel, by decide +kernel, by decide +kernel⟩

end FlowTyping.Flow
