import FlowTyping.Proofs.Flow.Regrouping
import FlowTyping.Proofs.Forest.Visible
import FlowTyping.TypeLattice.Prescribed

/-!
# Flow scopes that look alike

Agreement asks about few names: those that are refined, and those that are visible if the scopes
differ. Every other name has its declared type on both sides, and the same one. So agreement decides
whether two flow scopes look alike to whoever may ask for any name.
-/
namespace FlowTyping.Flow
open TypeLattice
variable {Λ : Type} [TypeLattice Λ] {types : Λ} {forest : Forest} {f f' g g' : Flow} {name : Name}

/-- Two flow scopes of which both or neither are unreachable, and whose effective types a lattice
takes to be the same for every name with a spelling. -/
structure Alike (types : Λ) (forest : Forest) (f g : Flow) : Prop where
  bottom : f.isBottom forest = g.isBottom forest
  slots : ∀ name, forest.Interned name → ∃ slot other,
    f.slotType forest name = .ok slot ∧ g.slotType forest name = .ok other ∧
      sameSlots types slot other = true

/-- Two flow scopes that answer every question in the same way. -/
structure Answers (forest : Forest) (f g : Flow) : Prop where
  bottom : f.isBottom forest = g.isBottom forest
  slots : ∀ name, forest.Interned name → f.slotType forest name = g.slotType forest name

theorem sameSlots_equivalence (hsame : Equivalence fun a b => sameType types a b = true) :
    Equivalence fun slot other => sameSlots types slot other = true where
  refl := sameSlots_self hsame.refl
  symm {slot other} h := by
    cases slot with
    | none => cases other <;> exact h
    | some a =>
      cases other with
      | none => exact h
      | some b => exact hsame.symm h
  trans {slot between other} h h' := by
    cases between with
    | none => cases slot <;> cases other <;> simp_all [sameSlots]
    | some b =>
      cases slot with
      | none => cases h
      | some a =>
        cases other with
        | none => cases h'
        | some c => exact hsame.trans h h'

private def sameIn (types : Λ) (forest : Forest) (f g : Flow) (name : Name) : Bool :=
  sameSlots types (f.effective? forest name) (g.effective? forest name)

theorem Placed.slotType_eq (hforest : forest.Sound) (hf : f.Placed forest)
    (hname : forest.Interned name) : f.slotType forest name = .ok (f.effective? forest name) :=
  Flow.slotType_eq hforest hf.scope hname

theorem Placed.child (hf : f.Placed forest) (stamp : Nat) : (f.child stamp).Placed forest := by
  refine ⟨hf.scope, fun name hname => hf.names name ?_⟩
  rw [mem_slotNames, Flow.child, refinement?_push] at hname
  exact mem_slotNames.mpr hname

/-- An empty layer changes no answer. -/
theorem answers_child (f : Flow) (stamp : Nat) : Answers forest (f.child stamp) f := by
  refine ⟨rfl, fun name _ => ?_⟩
  rw [slotType, slotType, child, refinement?_push, scope_push]

private theorem Placed.alike_iff (hforest : forest.Sound) (hf : f.Placed forest)
    (hg : g.Placed forest) :
    Alike types forest f g ↔ f.isBottom forest = g.isBottom forest ∧
      ∀ name, forest.Interned name → sameIn types forest f g name = true := by
  constructor
  · intro halike
    refine ⟨halike.bottom, fun name hname => ?_⟩
    obtain ⟨slot, other, hslot, hother, hsame⟩ := halike.slots name hname
    obtain rfl := Except.ok.inj ((hf.slotType_eq hforest hname).symm.trans hslot)
    obtain rfl := Except.ok.inj ((hg.slotType_eq hforest hname).symm.trans hother)
    exact hsame
  · rintro ⟨hbottom, hsame⟩
    exact ⟨hbottom, fun name hname =>
      ⟨_, _, hf.slotType_eq hforest hname, hg.slotType_eq hforest hname, hsame name hname⟩⟩

/-- The names that agreement asks for, once it is known that both flow scopes are reachable or that
neither is. -/
private def asked (f g : Flow) (visible : List Name) : List Name :=
  f.slotNames ++ g.slotNames ++ if f.scope = g.scope then [] else visible

private theorem all_asked (visible : List Name) (test : Name → Bool) :
    (asked f g visible).all test =
      ((f.slotNames ++ g.slotNames).all test && (f.scope = g.scope || visible.all test)) := by
  rw [asked, List.all_append]
  by_cases hscope : f.scope = g.scope <;> simp [hscope]

private theorem Placed.agrees_eq (hforest : forest.Sound) (hf : f.Placed forest)
    (hg : g.Placed forest) {visible visible' : List Name}
    (hvisible : forest.visibleNames f.scope = .ok visible)
    (hvisible' : forest.visibleNames g.scope = .ok visible')
    (hnames : ∀ name ∈ visible ++ visible', forest.Interned name) :
    agrees types forest f g = .ok (f = g || (f.isBottom forest = g.isBottom forest &&
      (asked f g (visible ++ visible')).all (sameIn types forest f g))) := by
  have hsame : ∀ names : List Name, (∀ name ∈ names, forest.Interned name) →
      (names.allM fun name => do
        return sameSlots types (← effectiveType forest f.scope f.refinements name)
          (← effectiveType forest g.scope g.refinements name)) =
        Except.ok (names.all (sameIn types forest f g)) := by
    intro names hnames
    refine Except.allM_eq_all _ fun name hname => ?_
    rw [effectiveType_refinements, effectiveType_refinements,
      hf.slotType_eq hforest (hnames name hname), hg.slotType_eq hforest (hnames name hname)]
    rfl
  have hrefined := hsame (f.slotNames ++ g.slotNames) fun name hname =>
    (List.mem_append.mp hname).elim (hf.names name) (hg.names name)
  rw [slotNames, slotNames] at hrefined
  obtain ⟨bottom, hbottom⟩ : ∃ bottom, f.isBottom forest = .ok bottom := ⟨_, isBottom_eq hf.scope⟩
  obtain ⟨bottom', hbottom'⟩ : ∃ bottom, g.isBottom forest = .ok bottom := ⟨_, isBottom_eq hg.scope⟩
  unfold agrees
  by_cases heq : f = g
  · simp [heq]
  rw [if_neg heq, hbottom, hbottom', hvisible, hvisible']
  simp only [Except.ok_bind, hrefined, hsame (visible ++ visible') hnames, all_asked, slotNames]
  generalize (f.refinements.keys ++ g.refinements.keys).all (sameIn types forest f g) = refined
  by_cases hequal : bottom = bottom'
  · by_cases hscope : f.scope = g.scope
    · cases refined <;> simp [heq, hequal, hscope]
    · cases refined <;> simp [heq, hequal, hscope]
  · simp [heq, hequal]

/-- Whatever a name means in a scope is visible there. -/
theorem Placed.declared?_eq_none (hforest : forest.Built) (hf : f.Placed forest)
    {visible : List Name} (hvisible : forest.visibleNames f.scope = .ok visible)
    (hname : forest.Interned name) (hnot : name ∉ visible) :
    forest.declared? f.scope name = none := by
  have hresolve := hforest.sound.resolve_eq hf.scope hname
  rw [Forest.declared?]
  cases hmeaning : forest.meaning? f.scope name with
  | none => rfl
  | some found =>
    rw [hmeaning] at hresolve
    exact absurd (hforest.listed.mem_visibleNames hforest.sound hresolve hvisible) hnot

private theorem Placed.effective?_eq (hforest : forest.Built) (hf : f.Placed forest)
    (hg : g.Placed forest) {visible visible' : List Name}
    (hvisible : forest.visibleNames f.scope = .ok visible)
    (hvisible' : forest.visibleNames g.scope = .ok visible') (hname : forest.Interned name)
    (hasked : name ∉ asked f g (visible ++ visible')) :
    f.effective? forest name = g.effective? forest name := by
  simp only [asked, List.mem_append, not_or] at hasked
  obtain ⟨⟨hrefinedF, hrefinedG⟩, hothers⟩ := hasked
  rw [mem_slotNames, Option.not_isSome_iff_eq_none] at hrefinedF hrefinedG
  rw [effective?, effective?, hrefinedF, hrefinedG, Option.none_or, Option.none_or]
  by_cases hscope : f.scope = g.scope
  · rw [hscope]
  · rw [if_neg hscope, List.mem_append, not_or] at hothers
    rw [hf.declared?_eq_none hforest hvisible hname hothers.1,
      hg.declared?_eq_none hforest hvisible' hname hothers.2]

/-- Agreement decides whether flow scopes look alike. -/
theorem Placed.agrees_spec (hforest : forest.Built)
    (hnames : ∀ var ∈ forest.vars, forest.Interned var.name)
    (hself : ∀ type, sameType types type type = true) (hf : f.Placed forest)
    (hg : g.Placed forest) :
    ∃ answer, agrees types forest f g = .ok answer ∧ (answer = true ↔ Alike types forest f g) := by
  have hsound := hforest.sound
  obtain ⟨visible, hvisible, hspelledF⟩ :=
    hforest.listed.exists_visibleNames hsound hnames hf.scope
  obtain ⟨visible', hvisible', hspelledG⟩ :=
    hforest.listed.exists_visibleNames hsound hnames hg.scope
  have hspelled := List.forall_mem_append.mpr ⟨hspelledF, hspelledG⟩
  refine ⟨_, hf.agrees_eq hsound hg hvisible hvisible' hspelled, ?_⟩
  rw [hf.alike_iff hsound hg]
  simp only [Bool.or_eq_true, Bool.and_eq_true, decide_eq_true_eq, List.all_eq_true]
  constructor
  · rintro (rfl | ⟨hbottom, hsame⟩)
    · exact ⟨rfl, fun name _ => sameSlots_self hself _⟩
    · refine ⟨hbottom, fun name hname => ?_⟩
      by_cases hasked : name ∈ asked f g (visible ++ visible')
      · exact hsame name hasked
      · rw [sameIn, hf.effective?_eq hforest hg hvisible hvisible' hname hasked]
        exact sameSlots_self hself _
  · rintro ⟨hbottom, hsame⟩
    refine .inr ⟨hbottom, fun name hname => hsame name ?_⟩
    simp only [asked, List.mem_append] at hname
    rcases hname with (hname | hname) | hname
    · exact hf.names name hname
    · exact hg.names name hname
    · split at hname
      next => cases hname
      next => exact hspelled name hname

theorem Alike.congr (hf : Answers forest f f') (hg : Answers forest g g')
    (halike : Alike types forest f g) : Alike types forest f' g' := by
  refine ⟨hf.bottom.symm.trans (halike.bottom.trans hg.bottom), fun name hname => ?_⟩
  obtain ⟨slot, other, hslot, hother, hsame⟩ := halike.slots name hname
  exact ⟨slot, other, (hf.slots name hname).symm.trans hslot,
    (hg.slots name hname).symm.trans hother, hsame⟩

theorem Answers.symm (hanswers : Answers forest f g) : Answers forest g f :=
  ⟨hanswers.bottom.symm, fun name hname => (hanswers.slots name hname).symm⟩

/-- Where a lattice takes types to be the same by an equivalence, so does it flow scopes. -/
theorem alike_equivalence (hforest : forest.Sound)
    (hsame : Equivalence fun a b => sameType types a b = true) :
    Equivalence fun f g : {flow : Flow // flow.Placed forest} => Alike types forest f g where
  refl f := ⟨rfl, fun name hname =>
    have hslot := f.2.slotType_eq hforest hname
    ⟨_, _, hslot, hslot, sameSlots_self hsame.refl _⟩⟩
  symm halike := ⟨halike.bottom.symm, fun name hname =>
    have ⟨slot, other, hslot, hother, hslots⟩ := halike.slots name hname
    ⟨other, slot, hother, hslot, (sameSlots_equivalence hsame).symm hslots⟩⟩
  trans {f g h} halike halike' := by
    refine ⟨halike.bottom.trans halike'.bottom, fun name hname => ?_⟩
    obtain ⟨slot, between, hslot, hbetween, hslots⟩ := halike.slots name hname
    obtain ⟨between', other, hbetween', hother, hslots'⟩ := halike'.slots name hname
    obtain rfl := Except.ok.inj (hbetween.symm.trans hbetween')
    exact ⟨slot, other, hslot, hother, (sameSlots_equivalence hsame).trans hslots hslots'⟩

/-- Agreement of flow scopes decides whether they look alike, for every lattice that takes a type to
be the same as itself. So it does not depend on how the chains were built, and it is an equivalence
if the lattice compares types by one. -/
theorem agrees_iff_alike (hforest : forest.Built)
    (hnames : ∀ var ∈ forest.vars, forest.Interned var.name)
    (hself : ∀ type, sameType types type type = true) :
    (∀ f g : Flow, f.Placed forest → g.Placed forest →
      ∃ answer, agrees types forest f g = .ok answer ∧
        (answer = true ↔ Alike types forest f g)) ∧
    (∀ f f' g g' : Flow, f.Placed forest → f'.Placed forest → g.Placed forest → g'.Placed forest →
      Answers forest f f' → Answers forest g g' →
        agrees types forest f g = agrees types forest f' g') ∧
    ((Equivalence fun a b => sameType types a b = true) →
      Equivalence fun f g : {flow : Flow // flow.Placed forest} =>
        agrees types forest f g = .ok true) := by
  have hspec : ∀ {f g : Flow}, f.Placed forest → g.Placed forest →
      ∃ answer, agrees types forest f g = .ok answer ∧
        (answer = true ↔ Alike types forest f g) :=
    fun hf hg => hf.agrees_spec hforest hnames hself hg
  refine ⟨fun f g hf hg => hspec hf hg, fun f f' g g' hf hf' hg hg' hleft hright => ?_,
    fun hsame => ?_⟩
  · obtain ⟨answer, hanswer, hiff⟩ := hspec hf hg
    obtain ⟨answer', hanswer', hiff'⟩ := hspec hf' hg'
    have halike : Alike types forest f g ↔ Alike types forest f' g' :=
      ⟨.congr hleft hright, .congr hleft.symm hright.symm⟩
    rw [hanswer, hanswer', Bool.eq_iff_iff.mpr (hiff.trans (halike.trans hiff'.symm))]
  · have hagrees : ∀ f g : {flow : Flow // flow.Placed forest},
        agrees types forest f g = .ok true ↔ Alike types forest f g := by
      intro f g
      obtain ⟨answer, hanswer, hiff⟩ := hspec f.2 g.2
      rw [hanswer, ← hiff, Except.ok.injEq]
    simp only [hagrees]
    exact alike_equivalence hforest.sound hsame

/-- Numbers and strings, taken to be the same. -/
private def merging : Prescribed TypeTable :=
  { Prescribed.plain TypeTable.basic with equalities := [(⟨0⟩, ⟨1⟩)] }

private theorem sameType_merging {a b : TypeId} :
    sameType merging a b = true ↔ a = b ∨ (a = ⟨0⟩ ∧ b = ⟨1⟩) ∨ (a = ⟨1⟩ ∧ b = ⟨0⟩) := by
  simp [sameType, merging, Prescribed.equates, Prescribed.plain, and_comm]

private theorem sameType_merging_equivalence :
    Equivalence fun a b => sameType merging a b = true := by
  simp only [sameType_merging]
  exact ⟨fun _ => .inl rfl, by grind, by grind⟩

private theorem crossingBranches_placed :
    ∀ flow ∈ crossingBranches.take 2, flow.Placed crossing :=
  fun flow hflow => (crossingBranches_fit flow (crossingBranches_reachable ▸ hflow)).placed

theorem agrees_iff_alike_of_crossing :
    let inner := (entry 0 ⟨1⟩).refine 1 ⟨5⟩ ⟨0⟩
    let outer := (entry 2 ⟨0⟩).refine 3 ⟨5⟩ ⟨1⟩
    (∃ answer, agrees merging crossing inner outer = .ok answer ∧
      (answer = true ↔ Alike merging crossing inner outer)) ∧
    agrees merging crossing (inner.child 4) outer = agrees merging crossing inner outer ∧
    agrees merging crossing inner outer = .ok true ∧
    agrees merging crossing outer inner = .ok true := by
  intro inner outer
  have hnames : ∀ var ∈ crossing.vars, crossing.Interned var.name := by decide +kernel
  have hinner : inner.Placed crossing := crossingBranches_placed inner (by decide)
  have houter : outer.Placed crossing := crossingBranches_placed outer (by decide)
  obtain ⟨hdecides, hbuilding, hequivalence⟩ :=
    agrees_iff_alike crossing_built hnames (merging.sameType_self fun _ => decide_eq_true rfl)
  have hagrees : agrees merging crossing inner outer = .ok true := by decide +kernel
  refine ⟨hdecides inner outer hinner houter, ?_, hagrees, ?_⟩
  · exact hbuilding _ _ _ _ (hinner.child 4) hinner houter houter (answers_child inner 4)
      ⟨rfl, fun _ _ => rfl⟩
  · exact (hequivalence sameType_merging_equivalence).symm
      (x := ⟨inner, hinner⟩) (y := ⟨outer, houter⟩) hagrees

end FlowTyping.Flow
