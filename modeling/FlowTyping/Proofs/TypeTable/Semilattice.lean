import FlowTyping.Proofs.TypeTable.Calls
import FlowTyping.Proofs.TypeTable.Settled
import Mathlib.Data.Finset.Union

/-!
# The semilattice of types

Unions and least supertypes depend on parts alone, and so they obey the laws of a semilattice. The
two sides of a law may enter different types on the way, and then the numbers that they give in one
and the same table differ. So where that can happen, one side is asked after the other: it then gives
the type that is there, how ever many calls came in between.
-/
namespace FlowTyping.TypeTable

def partsOf (table : TypeTable) (types : List TypeId) : Finset TypeId :=
  types.toFinset.biUnion table.parts

variable {table later : TypeTable} {a b c type : TypeId} {types others : List TypeId}

/-! ## Unions -/

theorem mem_partsOf {member : TypeId} :
    member ∈ table.partsOf types ↔ ∃ type ∈ types, member ∈ table.parts type := by
  simp only [partsOf, Finset.mem_biUnion, List.mem_toFinset]

theorem partsOf_pair : table.partsOf [a, b] = table.parts a ∪ table.parts b := by
  ext member
  rw [mem_partsOf, Finset.mem_union]
  simp

theorem Sound.toFinset_membersOfAll (hsound : table.Sound) {members : List TypeId}
    (hall : table.membersOfAll types = .ok members) : members.toFinset = table.partsOf types := by
  ext member
  rw [List.mem_toFinset, (hsound.membersOfAll_facts hall).2.2, mem_partsOf]

theorem Sound.union_makes_partsOf (hsound : table.Sound)
    (hknown : ∀ type ∈ types, table.Known type) :
    ∃ type later, table.union types = .ok (type, later) ∧
      table.Makes (table.partsOf types) type later := by
  obtain ⟨members, hall⟩ := exists_membersOfAll hknown
  rw [← hsound.toFinset_membersOfAll hall]
  exact hsound.union_makes hall

theorem Sound.union_congr (hsound : table.Sound) (hknown : ∀ type ∈ types, table.Known type)
    (hothers : ∀ type ∈ others, table.Known type)
    (hparts : table.partsOf types = table.partsOf others) :
    table.union types = table.union others := by
  obtain ⟨members, hall⟩ := exists_membersOfAll hknown
  obtain ⟨members', hall'⟩ := exists_membersOfAll hothers
  have hsame : members.toFinset = members'.toFinset := by
    rw [hsound.toFinset_membersOfAll hall, hsound.toFinset_membersOfAll hall', hparts]
  have hmembers : members = members' :=
    eq_of_ordered (hsound.membersOfAll_facts hall).1 (hsound.membersOfAll_facts hall').1 hsame
  rw [union_eq, union_eq, hall, hall', hmembers]

/-- Types that have the parts of one that is there already make it again. -/
theorem Sound.union_again (hsound : table.Sound) (hknown : ∀ type ∈ types, table.Known type)
    (htype : table.Known type) (hparts : table.partsOf types = table.parts type) :
    table.union types = .ok (type, table) := by
  obtain ⟨made, later, hunion, hmakes⟩ := hsound.union_makes_partsOf hknown
  obtain ⟨rfl, rfl⟩ := hmakes.again htype hparts.symm
  exact hunion

/-- A table whose unions depend on the parts of the types alone: a union has just these parts, other
types with the same parts have the same union, and whatever is called in between, they have it
still. -/
structure UnitesByParts (table : TypeTable) : Prop where
  congr : ∀ types others, (∀ type ∈ types, table.Known type) →
    (∀ type ∈ others, table.Known type) → table.partsOf types = table.partsOf others →
      table.union types = table.union others
  lasting : ∀ types, (∀ type ∈ types, table.Known type) →
    ∃ type later, table.union types = .ok (type, later) ∧
      later.parts type = table.partsOf types ∧
      ∀ calls others, (∀ type ∈ others, (later.after calls).Known type) →
        (later.after calls).partsOf others = table.partsOf types →
          (later.after calls).union others = .ok (type, later.after calls)

theorem Sound.unitesByParts (hsound : table.Sound) : table.UnitesByParts := by
  refine ⟨fun types others hknown hothers hparts => hsound.union_congr hknown hothers hparts, ?_⟩
  intro types hknown
  obtain ⟨type, later, hunion, hmakes⟩ := hsound.union_makes_partsOf hknown
  refine ⟨type, later, hunion, hmakes.parts, fun calls others hothers hparts => ?_⟩
  have hgrows := later.grows_after calls
  apply (hmakes.sound.after calls).union_again hothers (hgrows.known hmakes.known)
  rw [hparts, hgrows.parts hmakes.known, hmakes.parts]

/-! ## Least supertypes -/

/-- One type taken twice is given back at once, and that is what its union with itself is. -/
theorem Sound.leastSupertype_eq_union (hsound : table.Sound) (ha : table.Known a)
    (hb : table.Known b) : table.leastSupertype a b = table.union [a, b] := by
  rw [leastSupertype_eq]
  split
  next hsame =>
    subst hsame
    refine (hsound.union_again (by simpa using ha) ha ?_).symm
    rw [partsOf_pair, Finset.union_self]
  next => rfl

theorem Sound.leastSupertype_comm (hsound : table.Sound) (ha : table.Known a)
    (hb : table.Known b) : table.leastSupertype a b = table.leastSupertype b a := by
  rw [hsound.leastSupertype_eq_union ha hb, hsound.leastSupertype_eq_union hb ha]
  apply hsound.union_congr (by simp [ha, hb]) (by simp [ha, hb])
  rw [partsOf_pair, partsOf_pair, Finset.union_comm]

theorem Sound.leastSupertype_of_subset (hsound : table.Sound) (ha : table.Known a)
    (hb : table.Known b) (hsubset : table.parts a ⊆ table.parts b) :
    table.leastSupertype a b = .ok (b, table) := by
  rw [hsound.leastSupertype_eq_union ha hb]
  apply hsound.union_again (by simp [ha, hb]) hb
  rw [partsOf_pair, Finset.union_eq_right.mpr hsubset]

/-! ## Answers that last -/

def SettlesOn (table : TypeTable) (attempt : Attempt UnknownType TypeTable TypeId)
    (consists : Finset TypeId) : Prop :=
  ∃ type later, table.Settles attempt type later ∧ later.Known type ∧ later.parts type = consists

/-- The first computation has an answer, and so has the second whenever it is made after the first:
the same one. -/
def SameAnswer (table : TypeTable) (first second : Attempt UnknownType TypeTable TypeId) : Prop :=
  ∃ type later, first.run.run table = (.ok type, later) ∧
    ∀ calls, (second.run.run (later.after calls)).1 = .ok type

variable {first second : Attempt UnknownType TypeTable TypeId} {consists result : Finset TypeId}

theorem SettlesOn.bind {next : TypeId → Attempt UnknownType TypeTable TypeId}
    (hfirst : table.SettlesOn first consists)
    (hnext : ∀ type later, table.Grows later → later.Sound → later.Known type →
      later.parts type = consists → later.SettlesOn (next type) result) :
    table.SettlesOn (first >>= next) result := by
  obtain ⟨type, between, hfirst, hknown, hparts⟩ := hfirst
  obtain ⟨type', later, hnext, hmade⟩ := hnext type between hfirst.grows hfirst.sound hknown hparts
  exact ⟨type', later, hfirst.bind hnext, hmade⟩

/-- Computations that settle on the same parts settle on the same type. -/
theorem SettlesOn.sameAnswer (hfirst : table.SettlesOn first consists)
    (hsecond : ∀ later, table.Grows later → later.Sound → later.SettlesOn second consists) :
    table.SameAnswer first second := by
  obtain ⟨type, later, hfirst, hknown, hparts⟩ := hfirst
  refine ⟨type, later, hfirst.run, fun calls => ?_⟩
  have hgrows := later.grows_after calls
  obtain ⟨type', last, hsecond, hknown', hparts'⟩ :=
    hsecond _ (hfirst.grows.trans hgrows) (hfirst.sound.after calls)
  have hsame : type' = type := by
    have hall := hgrows.trans hsecond.grows
    apply hsecond.sound.eq_of_parts_eq hknown' (hall.known hknown)
    rw [hparts', hall.parts hknown, hparts]
  rw [hsecond.run, hsame]

theorem Sound.left_settlesOn (hsound : table.Sound) (ha : table.Known a) (hb : table.Known b)
    (hc : table.Known c) :
    table.SettlesOn (do TypeLattice.leastSupertype (← TypeLattice.leastSupertype a b) c)
      (table.parts a ∪ table.parts b ∪ table.parts c) := by
  apply SettlesOn.bind (hsound.leastSupertype_settles ha hb)
  intro type later hgrows hsound htype hparts
  rw [← hparts, ← hgrows.parts hc]
  exact hsound.leastSupertype_settles htype (hgrows.known hc)

theorem Sound.right_settlesOn (hsound : table.Sound) (ha : table.Known a) (hb : table.Known b)
    (hc : table.Known c) :
    table.SettlesOn (do TypeLattice.leastSupertype a (← TypeLattice.leastSupertype b c))
      (table.parts a ∪ table.parts b ∪ table.parts c) := by
  apply SettlesOn.bind (hsound.leastSupertype_settles hb hc)
  intro type later hgrows hsound htype hparts
  rw [Finset.union_assoc, ← hparts, ← hgrows.parts ha]
  exact hsound.leastSupertype_settles (hgrows.known ha) htype

/-- A table whose types are a semilattice under least supertypes, with the empty type below all. -/
structure Semilattice (table : TypeTable) : Prop where
  comm : ∀ a b, table.Known a → table.Known b →
    table.leastSupertype a b = table.leastSupertype b a
  comm_lasting : ∀ a b, table.Known a → table.Known b →
    table.SameAnswer (TypeLattice.leastSupertype a b) (TypeLattice.leastSupertype b a)
  assoc : ∀ a b c, table.Known a → table.Known b → table.Known c →
    table.SameAnswer (do TypeLattice.leastSupertype (← TypeLattice.leastSupertype a b) c)
        (do TypeLattice.leastSupertype a (← TypeLattice.leastSupertype b c)) ∧
      table.SameAnswer (do TypeLattice.leastSupertype a (← TypeLattice.leastSupertype b c))
        (do TypeLattice.leastSupertype (← TypeLattice.leastSupertype a b) c)
  idempotent : ∀ a, table.Known a → table.leastSupertype a a = .ok (a, table)
  noType_left : ∀ a, table.Known a → table.leastSupertype noType a = .ok (a, table)
  noType_right : ∀ a, table.Known a → table.leastSupertype a noType = .ok (a, table)
  eq_union : ∀ a b, table.Known a → table.Known b →
    table.leastSupertype a b = table.union [a, b]

theorem Sound.semilattice (hsound : table.Sound) : table.Semilattice where
  comm a b ha hb := hsound.leastSupertype_comm ha hb
  comm_lasting a b ha hb := by
    apply SettlesOn.sameAnswer (hsound.leastSupertype_settles ha hb)
    intro later hgrows hsound
    rw [Finset.union_comm, ← hgrows.parts ha, ← hgrows.parts hb]
    exact hsound.leastSupertype_settles (hgrows.known hb) (hgrows.known ha)
  assoc a b c ha hb hc := by
    constructor
    · apply (hsound.left_settlesOn ha hb hc).sameAnswer
      intro later hgrows hsound
      rw [← hgrows.parts ha, ← hgrows.parts hb, ← hgrows.parts hc]
      exact hsound.right_settlesOn (hgrows.known ha) (hgrows.known hb) (hgrows.known hc)
    · apply (hsound.right_settlesOn ha hb hc).sameAnswer
      intro later hgrows hsound
      rw [← hgrows.parts ha, ← hgrows.parts hb, ← hgrows.parts hc]
      exact hsound.left_settlesOn (hgrows.known ha) (hgrows.known hb) (hgrows.known hc)
  idempotent a ha := hsound.leastSupertype_of_subset ha ha (Finset.Subset.refl _)
  noType_left a ha := by
    apply hsound.leastSupertype_of_subset hsound.known_noType ha
    rw [hsound.parts_noType]
    exact Finset.empty_subset _
  noType_right a ha := by
    rw [hsound.leastSupertype_comm ha hsound.known_noType]
    apply hsound.leastSupertype_of_subset hsound.known_noType ha
    rw [hsound.parts_noType]
    exact Finset.empty_subset _
  eq_union a b ha hb := hsound.leastSupertype_eq_union ha hb

/-- In one table the two sides of associativity may give different numbers: here they both enter the
union of three types, and only the second has to enter a union of two before it. -/
example :
    let table := basic.after [.union [⟨0⟩, ⟨1⟩]]
    let left : Attempt UnknownType TypeTable TypeId := do
      TypeLattice.leastSupertype (← TypeLattice.leastSupertype ⟨0⟩ ⟨1⟩) ⟨2⟩
    let right : Attempt UnknownType TypeTable TypeId := do
      TypeLattice.leastSupertype ⟨0⟩ (← TypeLattice.leastSupertype ⟨1⟩ ⟨2⟩)
    (left.run.run table).1 = .ok ⟨5⟩ ∧ (right.run.run table).1 = .ok ⟨6⟩ := by
  constructor <;> cbv

/-- After any calls every union is in its form and no two types have one shape; further calls keep
what is there; unions depend on parts alone; and least supertypes obey the laws of a semilattice. -/
theorem semilattice_after (calls : List Call) :
    (basic.after calls).Canonical ∧
      (∀ more, (basic.after calls).Grows ((basic.after calls).after more)) ∧
      (basic.after calls).UnitesByParts ∧ (basic.after calls).Semilattice := by
  have hbuilt := Built.basic.after calls
  exact ⟨hbuilt.canonical, grows_after _, hbuilt.sound.unitesByParts, hbuilt.sound.semilattice⟩

end FlowTyping.TypeTable
