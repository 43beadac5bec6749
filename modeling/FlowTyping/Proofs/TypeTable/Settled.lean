import FlowTyping.Proofs.Attempt
import FlowTyping.Proofs.TypeTable.Parts
import Mathlib.Data.Finset.Lattice.Basic
import Mathlib.Order.WithBot

/-!
# Settled computations

A computation on a table is settled by its first run: every later run, on whatever the table has
grown to, gives the same result and leaves the table alone. Joins of slots are such computations,
and the value of a join is the least one above the values of the slots.
-/
namespace FlowTyping.TypeTable
open TypeLattice Attempt

def Holds (table : TypeTable) (slot : Option TypeId) : Prop := ∀ type ∈ slot, table.Known type

/-- The parts of the type of a slot. A slot without a type has less than the empty type. -/
def value (table : TypeTable) : Option TypeId → WithBot (Finset TypeId)
  | some type => (table.parts type : WithBot (Finset TypeId))
  | none => ⊥

/-- What a computation gives and leaves, now and whenever it is made again. -/
structure Settles {ε α : Type} (table : TypeTable) (attempt : Attempt ε TypeTable α) (result : α)
    (later : TypeTable) : Prop where
  run : attempt.run.run table = (.ok result, later)
  grows : table.Grows later
  sound : later.Sound
  again : ∀ last, later.Grows last → last.Sound → attempt.run.run last = (.ok result, last)

variable {ε α β : Type} {table between later : TypeTable} {a b slot : Option TypeId}

theorem Grows.holds (hgrows : table.Grows later) (hslot : table.Holds slot) : later.Holds slot :=
  fun type htype => hgrows.known (hslot type htype)

theorem Grows.value (hgrows : table.Grows later) (hslot : table.Holds slot) :
    later.value slot = table.value slot := by
  cases slot with
  | none => rfl
  | some type => exact congrArg _ (hgrows.parts (hslot type rfl))

theorem Sound.eq_of_value_eq (hsound : table.Sound) (ha : table.Holds a) (hb : table.Holds b)
    (hvalue : table.value a = table.value b) : a = b := by
  cases a with
  | none =>
    cases b with
    | none => rfl
    | some typeB => cases hvalue
  | some typeA =>
    cases b with
    | none => cases hvalue
    | some typeB =>
      have hparts := WithBot.coe_injective hvalue
      exact congrArg some (hsound.eq_of_parts_eq (ha typeA rfl) (hb typeB rfl) hparts)

/-- Handles alone decide whether slots have the same type. -/
theorem sameSlots_eq (table : TypeTable) (a b : Option TypeId) :
    sameSlots table a b = decide (a = b) := by
  cases a <;> cases b <;> simp [sameSlots, sameType]

theorem Sound.settles_pure (hsound : table.Sound) (result : α) :
    table.Settles (pure result : Attempt ε TypeTable α) result table :=
  ⟨rfl, .refl table, hsound, fun _ _ _ => rfl⟩

theorem Settles.bind {attempt : Attempt ε TypeTable α} {next : α → Attempt ε TypeTable β}
    {first : α} {result : β} (hfirst : table.Settles attempt first between)
    (hnext : between.Settles (next first) result later) :
    table.Settles (attempt >>= next) result later := by
  refine ⟨?_, hfirst.grows.trans hnext.grows, hnext.sound, fun last hgrows hsound => ?_⟩
  · rw [run_bind_of_ok hfirst.run, hnext.run]
  · rw [run_bind_of_ok (hfirst.again last (hnext.grows.trans hgrows) hsound)]
    exact hnext.again last hgrows hsound

theorem Settles.map {attempt : Attempt ε TypeTable α} {result : α} (f : α → β)
    (hsettles : table.Settles attempt result later) :
    table.Settles (f <$> attempt) (f result) later := by
  rw [map_eq_pure_bind]
  exact hsettles.bind (hsettles.sound.settles_pure (f result))

theorem Settles.failing {ε₁ : Type} {attempt : Attempt ε TypeTable α} {result : α}
    (tell : ε → ε₁) (hsettles : table.Settles attempt result later) :
    table.Settles (attempt.failing tell) result later := by
  exact ⟨run_failing_eq_ok_iff.mpr hsettles.run, hsettles.grows, hsettles.sound,
    fun last hgrows hsound => run_failing_eq_ok_iff.mpr (hsettles.again last hgrows hsound)⟩

theorem Sound.leastSupertype_settles (hsound : table.Sound) {a b : TypeId} (ha : table.Known a)
    (hb : table.Known b) :
    ∃ type later, table.Settles (TypeLattice.leastSupertype a b) type later ∧
      later.Known type ∧ later.parts type = table.parts a ∪ table.parts b := by
  obtain ⟨type, later, hjoin, hmakes⟩ := hsound.leastSupertype_makes ha hb
  refine ⟨type, later, ⟨outcome_eq_ok_iff.mp hjoin, hmakes.grows, hmakes.sound, ?_⟩,
    hmakes.known, hmakes.parts⟩
  intro last hgrows hlast
  have hall := hmakes.grows.trans hgrows
  obtain ⟨type', later', hjoin', hmakes'⟩ :=
    hlast.leastSupertype_makes (hall.known ha) (hall.known hb)
  have hparts : last.parts type = last.parts a ∪ last.parts b := by
    rw [hgrows.parts hmakes.known, hmakes.parts, hall.parts ha, hall.parts hb]
  obtain ⟨rfl, rfl⟩ := hmakes'.again (hgrows.known hmakes.known) hparts
  exact outcome_eq_ok_iff.mp hjoin'

/-- The join of two slots has the least value above both. -/
theorem Sound.joinSlots_settles (hsound : table.Sound) (ha : table.Holds a) (hb : table.Holds b) :
    ∃ slot later, table.Settles (joinSlots a b) slot later ∧ later.Holds slot ∧
      later.value slot = table.value a ⊔ table.value b := by
  cases a with
  | none =>
    cases b with
    | none => exact ⟨none, table, hsound.settles_pure none, ha, rfl⟩
    | some typeB =>
      exact ⟨some typeB, table, hsound.settles_pure _, hb, (bot_sup_eq _).symm⟩
  | some typeA =>
    cases b with
    | none => exact ⟨some typeA, table, hsound.settles_pure _, ha, (sup_bot_eq _).symm⟩
    | some typeB =>
      obtain ⟨type, later, hsettles, hknown, hparts⟩ :=
        hsound.leastSupertype_settles (ha typeA rfl) (hb typeB rfl)
      refine ⟨some type, later, hsettles.map some, ?_, ?_⟩
      · intro type' htype'
        rw [← Option.some.inj htype']
        exact hknown
      · exact congrArg _ hparts

def joinAll (slots : List (Option TypeId)) : Attempt UnknownType TypeTable (Option TypeId) :=
  slots.foldlM joinSlots none

private theorem Sound.foldlM_settles (hsound : table.Sound) {slots : List (Option TypeId)}
    (ha : table.Holds a) (hslots : ∀ slot ∈ slots, table.Holds slot) :
    ∃ joined later, table.Settles (slots.foldlM joinSlots a) joined later ∧ later.Holds joined ∧
      ∀ bound, later.value joined ≤ bound ↔
        table.value a ≤ bound ∧ ∀ slot ∈ slots, table.value slot ≤ bound := by
  induction slots generalizing table a with
  | nil => exact ⟨a, table, hsound.settles_pure a, ha, by simp⟩
  | cons slot slots ih =>
    obtain ⟨hslot, hslots⟩ := List.forall_mem_cons.mp hslots
    obtain ⟨first, between, hfirst, hholds, hvalue⟩ := hsound.joinSlots_settles ha hslot
    obtain ⟨joined, later, hjoined, hholds', hbound⟩ :=
      ih hfirst.sound hholds fun slot hmem => hfirst.grows.holds (hslots slot hmem)
    refine ⟨joined, later, ?_, hholds', fun bound => ?_⟩
    · rw [List.foldlM_cons]
      exact hfirst.bind hjoined
    · have hrest : (∀ slot ∈ slots, between.value slot ≤ bound) ↔
          ∀ slot ∈ slots, table.value slot ≤ bound := by
        refine forall₂_congr fun slot hmem => ?_
        rw [hfirst.grows.value (hslots slot hmem)]
      rw [hbound, hvalue, hrest, sup_le_iff, List.forall_mem_cons, and_assoc]

/-- A slot that is the join of others: joining them gives it and changes nothing any more, and it is
the least slot above them. -/
structure JoinOf (table : TypeTable) (slots : List (Option TypeId)) (joined : Option TypeId) :
    Prop where
  again : ∀ last, table.Grows last → last.Sound →
    (joinAll slots).run.run last = (.ok joined, last)
  known : ∀ slot ∈ slots, table.Holds slot
  holds : table.Holds joined
  least : ∀ bound, table.value joined ≤ bound ↔ ∀ slot ∈ slots, table.value slot ≤ bound

theorem Sound.joinAll_settles (hsound : table.Sound) {slots : List (Option TypeId)}
    (hslots : ∀ slot ∈ slots, table.Holds slot) :
    ∃ joined later, table.Settles (joinAll slots) joined later ∧ later.JoinOf slots joined := by
  have hnone : table.Holds none := fun type htype => by cases htype
  obtain ⟨joined, later, hsettles, hholds, hbound⟩ := hsound.foldlM_settles hnone hslots
  have hknown : ∀ slot ∈ slots, later.Holds slot :=
    fun slot hslot => hsettles.grows.holds (hslots slot hslot)
  refine ⟨joined, later, hsettles, hsettles.again, hknown, hholds, fun bound => ?_⟩
  have hvalues : (∀ slot ∈ slots, later.value slot ≤ bound) ↔
      ∀ slot ∈ slots, table.value slot ≤ bound := by
    refine forall₂_congr fun slot hslot => ?_
    rw [hsettles.grows.value (hslots slot hslot)]
  rw [hbound, hvalues]
  exact and_iff_right bot_le

theorem JoinOf.grow {slots : List (Option TypeId)} {joined : Option TypeId}
    (hjoin : table.JoinOf slots joined) (hgrows : table.Grows later) :
    later.JoinOf slots joined := by
  refine ⟨fun last hlast => hjoin.again last (hgrows.trans hlast),
    fun slot hslot => hgrows.holds (hjoin.known slot hslot), hgrows.holds hjoin.holds, ?_⟩
  intro bound
  rw [hgrows.value hjoin.holds, hjoin.least]
  refine forall₂_congr fun slot hslot => ?_
  rw [hgrows.value (hjoin.known slot hslot)]

theorem JoinOf.ne_none {slots : List (Option TypeId)} {joined : Option TypeId}
    (hjoin : table.JoinOf slots joined) {type : TypeId} (htype : some type ∈ slots) :
    joined ≠ none := by
  rintro rfl
  have hle := (hjoin.least ⊥).mp le_rfl (some type) htype
  exact WithBot.coe_ne_bot (le_bot_iff.mp hle)

theorem joinSlots_self (a : Option TypeId) :
    (joinSlots a a : Attempt UnknownType TypeTable (Option TypeId)) = pure a := by
  cases a with
  | none => rfl
  | some type =>
    have hsame : (TypeLattice.leastSupertype type type : Attempt UnknownType TypeTable TypeId) =
        pure type := if_pos rfl
    rw [joinSlots, hsame, map_pure]

theorem joinAll_of_forall {slots : List (Option TypeId)} (hslots : slots ≠ [])
    (hall : ∀ slot ∈ slots, slot = a) : joinAll slots = pure a := by
  have hrest : ∀ rest : List (Option TypeId), (∀ slot ∈ rest, slot = a) →
      (rest.foldlM joinSlots a : Attempt UnknownType TypeTable (Option TypeId)) = pure a := by
    intro rest hrest
    induction rest with
    | nil => rfl
    | cons slot rest ih =>
      obtain ⟨rfl, hrest⟩ := List.forall_mem_cons.mp hrest
      rw [List.foldlM_cons, joinSlots_self, pure_bind, ih hrest]
  cases slots with
  | nil => exact absurd rfl hslots
  | cons slot slots =>
    obtain ⟨rfl, hall⟩ := List.forall_mem_cons.mp hall
    have hfirst : (joinSlots none slot : Attempt UnknownType TypeTable (Option TypeId)) =
        pure slot := by
      cases slot <;> rfl
    rw [joinAll, List.foldlM_cons, hfirst, pure_bind, hrest slots hall]

theorem joinAll_singleton (slot : Option TypeId) : joinAll [slot] = pure slot :=
  joinAll_of_forall (List.cons_ne_nil slot []) fun _ hmem => List.mem_singleton.mp hmem

theorem JoinOf.of_forall {slots : List (Option TypeId)} (hslots : slots ≠ [])
    (hall : ∀ slot ∈ slots, slot = a) (ha : table.Holds a) : table.JoinOf slots a := by
  refine ⟨fun last _ _ => ?_, fun slot hslot => hall slot hslot ▸ ha, ha, fun bound => ?_⟩
  · rw [joinAll_of_forall hslots hall]
    rfl
  · constructor
    · intro hbound slot hslot
      rw [hall slot hslot]
      exact hbound
    · intro hbound
      obtain ⟨slot, hslot⟩ := List.exists_mem_of_ne_nil slots hslots
      rw [← hall slot hslot]
      exact hbound slot hslot

end FlowTyping.TypeTable
