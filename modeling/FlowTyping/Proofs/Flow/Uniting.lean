import FlowTyping.Flow.Store
import FlowTyping.Proofs.Attempt
import FlowTyping.Proofs.TypeTable.Parts
import FlowTyping.TypeLattice.Prescribed
import FlowTyping.TypeLattice.Recorded

/-!
# What joins leave in the lattice

A join asks the lattice for least supertypes and for nothing else that could change it. So whatever
it leaves, also where it fails on the way, is what these have left: in a table of types some unions
at the end. All other steps on flow scopes leave the lattice alone.
-/
namespace FlowTyping
open Attempt
variable {Λ : Type} [TypeLattice Λ]

/-- The lattice changes by steps of a relation where it is asked for least supertypes. -/
def TypeLattice.JoinsBy (step : Λ → Λ → Prop) : Prop :=
  ∀ a b, GoesBy step (leastSupertype a b : Attempt UnknownType Λ TypeId)

open TypeLattice
variable {step : Λ → Λ → Prop}

namespace TypeLattice

theorem JoinsBy.joinSlots (hjoins : JoinsBy step) (a b : Option TypeId) :
    GoesBy step (joinSlots a b : Attempt UnknownType Λ (Option TypeId)) := by
  cases a with
  | none => cases b <;> exact goesBy_pure _
  | some typeA =>
    cases b with
    | none => exact goesBy_pure _
    | some typeB => exact (hjoins typeA typeB).map some

end TypeLattice

namespace Flow

theorem joinedSlots_goesBy (hjoins : JoinsBy step) (forest : Forest) (scope : ScopeId)
    (branches : List Slots) (names : List Name) :
    GoesBy step (joinedSlots forest scope branches names : Attempt Fault Λ Slots) := by
  induction names with
  | nil => exact goesBy_pure _
  | cons name names ih =>
    have htype : ∀ declared, GoesBy step
        (joinedType declared name branches : Attempt UnknownType Λ (Option TypeId)) :=
      fun declared => goesBy_foldlM (fun joined slots => hjoins.joinSlots joined _) branches none
    refine (goesBy_reading _).bind fun declared => ?_
    refine (GoesBy.failing _ (htype declared)).bind fun joined => ?_
    refine (goesBy_reading .ok).bind fun types => ih.bind fun slots => ?_
    cases joined <;> exact goesBy_pure _

/-- A join changes the lattice at most where it asks for least supertypes, how ever it ends. -/
theorem join_goesBy (hjoins : JoinsBy step) (stamp : Nat) (forest : Forest) (flows : List Flow) :
    GoesBy step (join stamp forest flows : Attempt Fault Λ Flow) := by
  cases flows with
  | nil => exact fun _ => .refl
  | cons first rest =>
    refine (goesBy_reading _).bind fun live => ?_
    match live with
    | [] => exact goesBy_pure _
    | [only] => exact goesBy_pure _
    | flow :: second :: others =>
      exact (goesBy_reading _).bind fun scope => (goesBy_reading _).bind fun branches =>
        (joinedSlots_goesBy hjoins forest scope branches _).bind fun _ => goesBy_pure _

end Flow

def FlowStep.IsJoin : FlowStep → Prop
  | .join _ _ => True
  | _ => False

theorem FlowStore.perform_goesBy (store : FlowStore) (forest : Forest) (taken : FlowStep)
    (hjoins : taken.IsJoin → JoinsBy step) :
    GoesBy step (store.perform forest taken : Attempt Fault Λ (Flow × FlowStore)) := by
  refine GoesBy.bind ?_ fun _ => goesBy_pure _
  cases taken with
  | join flows target =>
    exact (goesBy_reading _).bind fun _ => Flow.join_goesBy (hjoins trivial) _ _ _
  | _ => exact goesBy_reading _

/-! ## Tables of types -/

theorem Recorded.joinsBy (hjoins : JoinsBy step) :
    JoinsBy fun record later : Recorded Λ =>
      Relation.ReflTransGen step record.types later.types := by
  intro a b
  refine GoesBy.bind (fun record => .single (hjoins a b record.types)) fun _ => ?_
  exact GoesBy.bind (fun _ => .single .refl) fun _ => goesBy_pure _

theorem Prescribed.joinsBy (hjoins : JoinsBy step) :
    JoinsBy fun types later : Prescribed Λ =>
      ∃ changed, Relation.ReflTransGen step types.types changed ∧
        later = { types with types := changed } := by
  intro a b
  refine GoesBy.bind (fun _ => .refl) fun types => ?_
  cases last? types.supertypes (a, b) with
  | some answer => exact goesBy_pure answer
  | none => exact fun types => .single ⟨_, hjoins a b types.types, rfl⟩

namespace TypeTable

def Unites (table later : TypeTable) : Prop :=
  ∃ members, later = ⟨table.shapes.push (.union members)⟩

theorem joinsBy_unites : JoinsBy Unites := by
  intro a b table
  refine (joining_atomic a b).run_induction .refl fun type later hrun => ?_
  rcases leastSupertype_cases (outcome_eq_ok_iff.mpr hrun) with rfl | ⟨members, rfl⟩
  · exact .refl
  · rcases table.intern_cases (.union members) with ⟨_, _, hold⟩ | ⟨_, hnew⟩
    · rw [hold]
    · rw [hnew]
      exact .single ⟨members, rfl⟩

/-- One union after the other makes a list of unions. -/
theorem shapes_of_unites {table later : TypeTable}
    (hunites : Relation.ReflTransGen Unites table later) :
    ∃ unions : List (List TypeId),
      later.shapes = table.shapes ++ (unions.map Shape.union).toArray := by
  induction hunites with
  | refl => exact ⟨[], by simp⟩
  | tail _ hunion ih =>
    obtain ⟨unions, hshapes⟩ := ih
    obtain ⟨members, rfl⟩ := hunion
    exact ⟨unions ++ [members], Array.toList_inj.mp (by simp [hshapes])⟩

end TypeTable

/-- Types as before, with some unions at the end of the table. -/
def Prescribed.uniting (types : Prescribed TypeTable) (unions : List (List TypeId)) :
    Prescribed TypeTable :=
  { types with types := ⟨types.types.shapes ++ (unions.map TypeTable.Shape.union).toArray⟩ }

theorem Prescribed.uniting_nil (types : Prescribed TypeTable) : types.uniting [] = types := by
  simp [uniting]

theorem Prescribed.exists_uniting {types later : Prescribed TypeTable}
    (hsteps : Relation.ReflTransGen (fun types later : Prescribed TypeTable =>
      ∃ changed, Relation.ReflTransGen TypeTable.Unites types.types changed ∧
        later = { types with types := changed }) types later) :
    ∃ unions, later = types.uniting unions := by
  have hall : ∃ changed, Relation.ReflTransGen TypeTable.Unites types.types changed ∧
      later = { types with types := changed } := by
    induction hsteps with
    | refl => exact ⟨types.types, .refl, rfl⟩
    | tail _ hstep ih =>
      obtain ⟨between, hbetween, rfl⟩ := ih
      obtain ⟨changed, hchanged, rfl⟩ := hstep
      exact ⟨changed, hbetween.trans hchanged, rfl⟩
  obtain ⟨changed, hunites, rfl⟩ := hall
  obtain ⟨unions, hshapes⟩ := TypeTable.shapes_of_unites hunites
  refine ⟨unions, ?_⟩
  rw [Prescribed.uniting, ← hshapes]

/-- Of the steps on flow scopes the joins alone change the types, and they add only unions. -/
theorem FlowStore.perform_unites (store : FlowStore) (forest : Forest) (taken : FlowStep)
    (types : Prescribed TypeTable) :
    ∃ unions, (unions ≠ [] → taken.IsJoin) ∧
      ((store.perform forest taken : Attempt Fault (Recorded (Prescribed TypeTable)) _).run.run
        (.start types)).2.types = types.uniting unions := by
  by_cases htaken : taken.IsJoin
  · have hsteps := store.perform_goesBy forest taken
      (fun _ => Recorded.joinsBy (Prescribed.joinsBy TypeTable.joinsBy_unites)) (.start types)
    obtain ⟨unions, hunions⟩ := Prescribed.exists_uniting
      (Relation.ReflTransGen.lift' Recorded.types (fun _ _ hstep => hstep) _ _ hsteps)
    exact ⟨unions, fun _ => htaken, hunions⟩
  · have hsteps : Relation.ReflTransGen Eq (Recorded.start types) _ :=
      store.perform_goesBy forest taken (fun hjoin => absurd hjoin htaken) _
    rw [Relation.reflTransGen_eq_self] at hsteps
    refine ⟨[], fun hne => absurd rfl hne, ?_⟩
    rw [← hsteps, Prescribed.uniting_nil]
    rfl

end FlowTyping
