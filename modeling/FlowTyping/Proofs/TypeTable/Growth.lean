import FlowTyping.Proofs.Except
import FlowTyping.TypeLattice.Structural
import Mathlib.Data.Finset.Card

/-!
# Growing tables

A table only grows, and what stands in it stays: types keep their shapes, and unions keep to the
form that makes equal unions one type.
-/
namespace FlowTyping.TypeTable

def Known (table : TypeTable) (type : TypeId) : Prop := type.raw < table.shapes.size

instance (table : TypeTable) (type : TypeId) : Decidable (table.Known type) :=
  inferInstanceAs (Decidable (type.raw < table.shapes.size))

/-- A table that has the shapes of another one under the same types. -/
def Grows (table later : TypeTable) : Prop :=
  ∀ (i : Nat) shape, table.shapes[i]? = some shape → later.shapes[i]? = some shape

def Plain (table : TypeTable) (type : TypeId) : Prop :=
  type ≠ noType ∧ ∃ shape, table.shapes[type.raw]? = some shape ∧ ∀ members, shape ≠ .union members

/-- The form that the members of a union have: at least two plain types, in order. -/
structure Fit (table : TypeTable) (members : List TypeId) : Prop where
  ordered : ∃ set : Std.ExtTreeSet TypeId, set.toList = members
  several : 2 ≤ members.length
  plain : ∀ member ∈ members, table.Plain member

/-- What holds of every table: the empty type is in its place, unions have their form, and no two
types are the same union. -/
structure Sound (table : TypeTable) : Prop where
  empty : table.shapes[noType.raw]? = some .noType
  fit : ∀ {type : TypeId} {members}, table.shapes[type.raw]? = some (.union members) →
    table.Fit members
  distinct : ∀ {a b : TypeId} {members}, table.shapes[a.raw]? = some (.union members) →
    table.shapes[b.raw]? = some (.union members) → a = b

variable {table later last : TypeTable} {a b type : TypeId} {shape : Shape}

theorem Grows.refl (table : TypeTable) : table.Grows table := fun _ _ h => h

theorem Grows.trans (hgrows : table.Grows later) (hgrows' : later.Grows last) :
    table.Grows last :=
  fun i shape hshape => hgrows' i shape (hgrows i shape hshape)

theorem known_iff : table.Known type ↔ ∃ shape, table.shapes[type.raw]? = some shape := by
  rw [Known]
  constructor
  · intro hlt
    exact ⟨_, Array.getElem?_eq_getElem hlt⟩
  · rintro ⟨shape, hshape⟩
    exact (Array.getElem?_eq_some_iff.mp hshape).1

theorem Grows.known (hgrows : table.Grows later) (hknown : table.Known type) :
    later.Known type := by
  obtain ⟨shape, hshape⟩ := known_iff.mp hknown
  exact known_iff.mpr ⟨shape, hgrows _ _ hshape⟩

theorem Grows.plain (hgrows : table.Grows later) (hplain : table.Plain type) :
    later.Plain type := by
  obtain ⟨hne, shape, hshape, hunion⟩ := hplain
  exact ⟨hne, shape, hgrows _ _ hshape, hunion⟩

theorem grows_push (table : TypeTable) (shape : Shape) :
    table.Grows ⟨table.shapes.push shape⟩ := by
  intro i old hold
  have hlt := (Array.getElem?_eq_some_iff.mp hold).1
  rw [← hold]
  exact (Array.getElem?_push_lt hlt).trans (Array.getElem?_eq_getElem hlt).symm

theorem getElem?_push_cases {i : Nat} {found : Shape}
    (hfound : (table.shapes.push shape)[i]? = some found) :
    table.shapes[i]? = some found ∨ (i = table.shapes.size ∧ found = shape) := by
  rw [Array.getElem?_push] at hfound
  split at hfound
  next hi => exact .inr ⟨hi, (Option.some.inj hfound).symm⟩
  next => exact .inl hfound

/-- A shape may be entered unless it is a union that is there already or out of form. -/
theorem Sound.push (hsound : table.Sound)
    (hunion : ∀ members, shape = .union members → table.Fit members ∧
      ∀ i : Nat, table.shapes[i]? ≠ some (.union members)) :
    Sound ⟨table.shapes.push shape⟩ := by
  have hgrows := table.grows_push shape
  have hfit : ∀ {members}, table.Fit members → Fit ⟨table.shapes.push shape⟩ members :=
    fun hfit => ⟨hfit.ordered, hfit.several, fun member hmember =>
      hgrows.plain (hfit.plain member hmember)⟩
  refine ⟨hgrows _ _ hsound.empty, ?_, ?_⟩
  · intro type members hshape
    rcases getElem?_push_cases hshape with hold | ⟨_, hnew⟩
    · exact hfit (hsound.fit hold)
    · exact hfit (hunion members hnew.symm).1
  · intro a b members ha hb
    rcases getElem?_push_cases ha with holdA | ⟨hiA, hnewA⟩
    · rcases getElem?_push_cases hb with holdB | ⟨_, hnewB⟩
      · exact hsound.distinct holdA holdB
      · exact absurd holdA ((hunion members hnewB.symm).2 _)
    · rcases getElem?_push_cases hb with holdB | ⟨hiB, _⟩
      · exact absurd holdB ((hunion members hnewA.symm).2 _)
      · exact Handle.ext (hiA.trans hiB.symm)

theorem intern_cases (table : TypeTable) (shape : Shape) :
    (∃ index : Nat, table.shapes[index]? = some shape ∧ table.intern shape = (⟨index⟩, table)) ∨
      ((∀ i : Nat, table.shapes[i]? ≠ some shape) ∧
        table.intern shape = (⟨table.shapes.size⟩, ⟨table.shapes.push shape⟩)) := by
  unfold intern
  split
  next index hindex =>
    obtain ⟨hlt, hsame, _⟩ := Array.findIdx?_eq_some_iff_getElem.mp hindex
    refine .inl ⟨index, ?_, rfl⟩
    rw [Array.getElem?_eq_getElem hlt, of_decide_eq_true hsame]
  next hnone =>
    refine .inr ⟨fun i hi => ?_, rfl⟩
    have hmem := Array.mem_of_getElem? hi
    have hdiffers := Array.findIdx?_eq_none_iff.mp hnone shape hmem
    simp at hdiffers

/-- A type that a table gives for a shape. It is an old type only if the table did not grow. -/
structure Interned (table : TypeTable) (shape : Shape) (type : TypeId) (later : TypeTable) :
    Prop where
  grows : table.Grows later
  shape : later.shapes[type.raw]? = some shape
  settled : table.Known type → later = table

theorem interned (table : TypeTable) (shape : Shape) :
    table.Interned shape (table.intern shape).1 (table.intern shape).2 := by
  rcases table.intern_cases shape with ⟨index, hindex, hintern⟩ | ⟨_, hintern⟩
  · rw [hintern]
    exact ⟨.refl table, hindex, fun _ => rfl⟩
  · rw [hintern]
    refine ⟨table.grows_push shape, Array.getElem?_push_size, fun hknown => ?_⟩
    exact absurd hknown (Nat.lt_irrefl _)

theorem Sound.intern (hsound : table.Sound)
    (hfit : ∀ members, shape = .union members → table.Fit members) :
    (table.intern shape).2.Sound := by
  rcases table.intern_cases shape with ⟨_, _, hintern⟩ | ⟨hnew, hintern⟩
  · rw [hintern]
    exact hsound
  · rw [hintern]
    refine hsound.push fun members hunion => ⟨hfit members hunion, ?_⟩
    rw [← hunion]
    exact hnew

end FlowTyping.TypeTable
