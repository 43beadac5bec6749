import FlowTyping.Proofs.TypeTable.Parts

/-!
# Runs of calls on tables

The calls that enter types, in any order and number. What stands in a table stays through all of
them, and no two types of a table have one shape. Unions, functions and objects are looked up before
they are entered. Classes are not, but their two shapes name the places they stand in.
-/
namespace FlowTyping.TypeTable
open Attempt

inductive Call where
  | union (types : List TypeId)
  | function (receiver : Option TypeId)
  | object (prototype : Option TypeId)
  | addClass (superclass : Option TypeId)
  | leastSupertype (a b : TypeId)
deriving DecidableEq

/-- The table after a call. A call for a type that is not known may fail and then leaves the table
as it is. -/
def perform (table : TypeTable) : Call → TypeTable
  | .union types => ((merging types).run.run table).2
  | .function receiver => (table.function receiver).2
  | .object prototype => (table.object prototype).2
  | .addClass superclass => (table.addClass superclass).2
  | .leastSupertype a b => ((joining a b).run.run table).2

def after (table : TypeTable) (calls : List Call) : TypeTable := calls.foldl perform table

variable {table later : TypeTable} {type : TypeId} {shape : Shape}

/-- What every call keeps holds after all of them. -/
theorem after_induction {motive : TypeTable → Prop}
    (hstep : ∀ table call, motive table → motive (table.perform call)) (hstart : motive table)
    (calls : List Call) : motive (table.after calls) := by
  induction calls generalizing table with
  | nil => exact hstart
  | cons call calls ih => exact ih (hstep table call hstart)

theorem Built.perform (hbuilt : table.Built) (call : Call) : (table.perform call).Built := by
  cases call with
  | union types =>
    exact (merging_atomic types).run_induction hbuilt fun _ _ hrun =>
      hbuilt.union (outcome_eq_ok_iff.mpr hrun)
  | function receiver => exact hbuilt.function receiver
  | object prototype => exact hbuilt.object prototype
  | addClass superclass => exact hbuilt.addClass superclass
  | leastSupertype a b =>
    exact (joining_atomic a b).run_induction hbuilt fun _ _ hrun =>
      hbuilt.leastSupertype (outcome_eq_ok_iff.mpr hrun)

theorem Built.after (hbuilt : table.Built) (calls : List Call) : (table.after calls).Built :=
  after_induction (fun _ call hbuilt => hbuilt.perform call) hbuilt calls

theorem Sound.perform (hsound : table.Sound) (call : Call) : (table.perform call).Sound := by
  cases call with
  | union types =>
    exact (merging_atomic types).run_induction hsound fun _ _ hrun =>
      hsound.of_union (outcome_eq_ok_iff.mpr hrun)
  | function receiver => exact hsound.intern fun members heq => by cases heq
  | object prototype => exact hsound.intern fun members heq => by cases heq
  | addClass superclass => exact hsound.addClass superclass
  | leastSupertype a b =>
    exact (joining_atomic a b).run_induction hsound fun _ _ hrun =>
      hsound.of_leastSupertype (outcome_eq_ok_iff.mpr hrun)

theorem Sound.after (hsound : table.Sound) (calls : List Call) : (table.after calls).Sound :=
  after_induction (fun _ call hsound => hsound.perform call) hsound calls

/-! ## What stays -/

theorem grows_addClass (table : TypeTable) (superclass : Option TypeId) :
    table.Grows (table.addClass superclass).2 :=
  (table.grows_push _).trans (grows_push _ _)

theorem grows_perform (table : TypeTable) (call : Call) : table.Grows (table.perform call) := by
  have hintern : ∀ shape, table.Grows (table.intern shape).2 :=
    fun shape => (table.interned shape).grows
  have hcases : ∀ later, (later = table ∨ ∃ members, later = (table.intern (.union members)).2) →
      table.Grows later := by
    rintro later (rfl | ⟨members, rfl⟩)
    · exact .refl later
    · exact hintern _
  cases call with
  | union types =>
    exact (merging_atomic types).run_induction (.refl table) fun _ later hrun =>
      hcases later (union_cases (outcome_eq_ok_iff.mpr hrun))
  | function receiver => exact hintern _
  | object prototype => exact hintern _
  | addClass superclass => exact table.grows_addClass superclass
  | leastSupertype a b =>
    exact (joining_atomic a b).run_induction (.refl table) fun _ later hrun =>
      hcases later (leastSupertype_cases (outcome_eq_ok_iff.mpr hrun))

/-- Types keep their shapes through all calls. -/
theorem grows_after (table : TypeTable) (calls : List Call) : table.Grows (table.after calls) :=
  after_induction (fun _ call hgrows => hgrows.trans (grows_perform _ call)) (.refl table) calls

/-! ## One type for each shape -/

/-- The places in which a shape may stand. The shapes of a class tell theirs. -/
def Shape.Sits (place : Nat) : Shape → Prop
  | .constructor next _ => next.raw = place + 1
  | .instances previous => previous.raw + 1 = place
  | _ => True

/-- A table without two types of one shape, where the shapes of classes are in their places. -/
structure Exact (table : TypeTable) : Prop where
  sits : ∀ {i : Nat} {shape}, table.shapes[i]? = some shape → shape.Sits i
  distinct : ∀ {i j : Nat} {shape}, table.shapes[i]? = some shape →
    table.shapes[j]? = some shape → i = j

theorem Exact.push (hexact : table.Exact) (hsits : shape.Sits table.shapes.size)
    (hnew : ∀ i : Nat, table.shapes[i]? ≠ some shape) : Exact ⟨table.shapes.push shape⟩ := by
  constructor
  · intro i found hfound
    rcases getElem?_push_cases hfound with hold | ⟨rfl, rfl⟩
    · exact hexact.sits hold
    · exact hsits
  · intro i j found hi hj
    rcases getElem?_push_cases hi with holdI | ⟨hlastI, rfl⟩
    · rcases getElem?_push_cases hj with holdJ | ⟨_, rfl⟩
      · exact hexact.distinct holdI holdJ
      · exact absurd holdI (hnew i)
    · rcases getElem?_push_cases hj with holdJ | ⟨hlastJ, _⟩
      · exact absurd holdJ (hnew j)
      · rw [hlastI, hlastJ]

/-- A shape that can only stand at the end of the table is new there. -/
theorem Exact.push_of_sits (hexact : table.Exact) (hsits : shape.Sits table.shapes.size)
    (honly : ∀ i : Nat, shape.Sits i → i = table.shapes.size) :
    Exact ⟨table.shapes.push shape⟩ := by
  refine hexact.push hsits fun i hi => ?_
  have hlt := (Array.getElem?_eq_some_iff.mp hi).1
  exact absurd (honly i (hexact.sits hi)) (Nat.ne_of_lt hlt)

theorem Exact.intern (hexact : table.Exact) (hsits : ∀ i, shape.Sits i) :
    (table.intern shape).2.Exact := by
  rcases table.intern_cases shape with ⟨_, _, hintern⟩ | ⟨hnew, hintern⟩
  · rw [hintern]
    exact hexact
  · rw [hintern]
    exact hexact.push (hsits _) hnew

theorem Exact.addClass (hexact : table.Exact) (superclass : Option TypeId) :
    (table.addClass superclass).2.Exact := by
  have hconstructor : Exact ⟨table.shapes.push
      (.constructor ⟨table.shapes.size + 1⟩ superclass)⟩ :=
    hexact.push_of_sits rfl fun _ hi => (Nat.succ.inj hi).symm
  have hsize : (table.shapes.push (.constructor ⟨table.shapes.size + 1⟩ superclass)).size =
      table.shapes.size + 1 := Array.size_push _
  exact hconstructor.push_of_sits hsize.symm fun _ hi => hi.symm.trans hsize.symm

theorem exact_basic : basic.Exact := by
  constructor
  · intro i found hfound
    match i with
    | 0 | 1 | 2 | 3 =>
      cases hfound
      trivial
    | i + 4 => simp [basic] at hfound
  · intro i j found hi hj
    have hlt := (Array.getElem?_eq_some_iff.mp hi).1
    have hnodup : basic.shapes.toList.Nodup := by decide
    rw [← Array.getElem?_toList] at hi hj
    exact (List.getElem?_inj hlt hnodup).mp (hi.trans hj.symm)

theorem Built.exact (hbuilt : table.Built) : table.Exact := by
  have hcases : ∀ {table later : TypeTable}, table.Exact →
      (later = table ∨ ∃ members, later = (table.intern (.union members)).2) → later.Exact := by
    rintro table later hexact (rfl | ⟨members, rfl⟩)
    · exact hexact
    · exact hexact.intern fun _ => trivial
  induction hbuilt with
  | basic => exact exact_basic
  | function receiver _ ih => exact ih.intern fun _ => trivial
  | object prototype _ ih => exact ih.intern fun _ => trivial
  | addClass superclass _ ih => exact ih.addClass superclass
  | union _ hunion ih => exact hcases ih (union_cases hunion)
  | leastSupertype _ hjoin ih => exact hcases ih (leastSupertype_cases hjoin)

/-- A table in which every union has at least two members in strict order, each of them known and
neither a union nor the empty type, and no two types have one shape. -/
structure Canonical (table : TypeTable) : Prop where
  several : ∀ (type : TypeId) members, table.shapes[type.raw]? = some (.union members) →
    2 ≤ members.length
  increasing : ∀ (type : TypeId) members, table.shapes[type.raw]? = some (.union members) →
    members.Pairwise fun a b => a.raw < b.raw
  flat : ∀ (type : TypeId) members, table.shapes[type.raw]? = some (.union members) →
    ∀ member ∈ members, ∃ shape, table.shapes[member.raw]? = some shape ∧
      shape ≠ .noType ∧ ∀ inner, shape ≠ .union inner
  distinct : ∀ (a b : TypeId) shape, table.shapes[a.raw]? = some shape →
    table.shapes[b.raw]? = some shape → a = b

theorem Fit.increasing {members : List TypeId} (hfit : table.Fit members) :
    members.Pairwise fun a b => a.raw < b.raw := by
  obtain ⟨set, rfl⟩ := hfit.ordered
  refine set.ordered_toList.imp fun hlt => ?_
  exact Nat.compare_eq_lt.mp hlt

theorem Built.canonical (hbuilt : table.Built) : table.Canonical := by
  have hsound := hbuilt.sound
  refine ⟨fun type members hshape => (hsound.fit hshape).several,
    fun type members hshape => (hsound.fit hshape).increasing, ?_, ?_⟩
  · intro type members hshape member hmember
    obtain ⟨hne, shape, hmember, hunion⟩ := (hsound.fit hshape).plain member hmember
    refine ⟨shape, hmember, ?_, hunion⟩
    rintro rfl
    exact hne (Handle.ext (hbuilt.exact.distinct hsound.empty hmember)).symm
  · intro a b shape ha hb
    exact Handle.ext (hbuilt.exact.distinct ha hb)

end FlowTyping.TypeTable
