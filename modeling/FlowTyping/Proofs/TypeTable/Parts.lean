import FlowTyping.Proofs.Attempt
import FlowTyping.Proofs.TypeTable.Growth

/-!
# Parts of types

A type consists of its members, the empty type of none. Types with the same parts are the same type,
and the least supertype of two types is the type of their parts together, old if there is one. So
what joins mean can be told without the numbers of the types that they build.
-/
namespace FlowTyping.TypeTable
open Attempt

/-- The members of a type but for the empty type. -/
def parts (table : TypeTable) (type : TypeId) : Finset TypeId :=
  match table.members type with
  | .ok members => members.toFinset.erase noType
  | .error _ => ∅

def union (table : TypeTable) (types : List TypeId) : Except UnknownType (TypeId × TypeTable) :=
  (merging types).outcome table

def leastSupertype (table : TypeTable) (a b : TypeId) : Except UnknownType (TypeId × TypeTable) :=
  (joining a b).outcome table

variable {table later last : TypeTable} {a b type : TypeId} {members : List TypeId}

/-- A union that meets an unknown type has entered nothing. -/
theorem merging_atomic (types : List TypeId) : Atomic (merging types) := by
  refine (keeps_reading _).atomic_bind fun members => Succeeds.failsBy fun table => ?_
  rcases members with _ | ⟨only, _ | ⟨second, others⟩⟩ <;> exact ⟨_, _, rfl⟩

theorem joining_atomic (a b : TypeId) : Atomic (joining a b) := by
  unfold joining
  split
  · exact (succeeds_pure a).failsBy
  · exact merging_atomic [a, b]

theorem union_eq (table : TypeTable) (types : List TypeId) :
    table.union types = do
      match ← table.membersOfAll types with
      | [] => return (noType, table)
      | [only] => return (only, table)
      | members => return table.intern (.union members) := by
  unfold union outcome
  simp only [merging, run_reading_bind]
  rcases table.membersOfAll types with unknown | _ | ⟨only, _ | ⟨second, others⟩⟩ <;> rfl

theorem leastSupertype_eq (table : TypeTable) (a b : TypeId) :
    table.leastSupertype a b = if a = b then .ok (a, table) else table.union [a, b] := by
  rw [leastSupertype, joining]
  split <;> rfl

theorem shape_eq_ok_iff {shape : Shape} :
    table.shape type = .ok shape ↔ table.shapes[type.raw]? = some shape := by
  unfold TypeTable.shape
  split <;> simp_all

theorem members_of_union (hshape : table.shapes[type.raw]? = some (.union members)) :
    table.members type = .ok members := by
  rw [TypeTable.members, shape_eq_ok_iff.mpr hshape]
  rfl

theorem members_of_other {shape : Shape} (hshape : table.shapes[type.raw]? = some shape)
    (hunion : ∀ members, shape ≠ .union members) : table.members type = .ok [type] := by
  rw [TypeTable.members, shape_eq_ok_iff.mpr hshape]
  cases shape with
  | union members => exact absurd rfl (hunion members)
  | _ => rfl

theorem Known.cases (hknown : table.Known type) :
    type = noType ∨ table.Plain type ∨
      ∃ members, table.shapes[type.raw]? = some (.union members) := by
  obtain ⟨shape, hshape⟩ := known_iff.mp hknown
  by_cases hempty : type = noType
  · exact .inl hempty
  · by_cases hunion : ∃ members, shape = .union members
    · obtain ⟨members, rfl⟩ := hunion
      exact .inr (.inr ⟨members, hshape⟩)
    · exact .inr (.inl ⟨hempty, shape, hshape, fun members heq => hunion ⟨members, heq⟩⟩)

theorem Plain.known (hplain : table.Plain type) : table.Known type := by
  obtain ⟨_, shape, hshape, _⟩ := hplain
  exact known_iff.mpr ⟨shape, hshape⟩

theorem Sound.known_noType (hsound : table.Sound) : table.Known noType :=
  known_iff.mpr ⟨_, hsound.empty⟩

theorem Sound.parts_noType (hsound : table.Sound) : table.parts noType = ∅ := by
  have hmembers := members_of_other hsound.empty fun members heq => by cases heq
  rw [parts, hmembers]
  simp

theorem Plain.parts (hplain : table.Plain type) : table.parts type = {type} := by
  obtain ⟨hne, shape, hshape, hunion⟩ := hplain
  rw [TypeTable.parts, members_of_other hshape hunion]
  simp [hne.symm]

theorem Fit.noType_not_mem (hfit : table.Fit members) : noType ∉ members :=
  fun hmem => (hfit.plain noType hmem).1 rfl

theorem Fit.parts (hfit : table.Fit members)
    (hshape : table.shapes[type.raw]? = some (.union members)) :
    table.parts type = members.toFinset := by
  rw [TypeTable.parts, members_of_union hshape]
  exact Finset.erase_eq_of_notMem (by simpa using hfit.noType_not_mem)

theorem Fit.two_le_card (hfit : table.Fit members) : 2 ≤ members.toFinset.card := by
  obtain ⟨set, rfl⟩ := hfit.ordered
  have hnodup : set.toList.Nodup := by
    refine set.distinct_toList.imp fun hne heq => hne ?_
    rw [heq]
    exact Std.ReflCmp.compare_self
  rw [List.toFinset_card_of_nodup hnodup]
  exact hfit.several

/-- Types in order are given by which they are. -/
theorem eq_of_ordered {members' : List TypeId}
    (hordered : ∃ set : Std.ExtTreeSet TypeId, set.toList = members)
    (hordered' : ∃ set : Std.ExtTreeSet TypeId, set.toList = members')
    (hsame : members.toFinset = members'.toFinset) : members = members' := by
  obtain ⟨set, rfl⟩ := hordered
  obtain ⟨set', rfl⟩ := hordered'
  congr 1
  apply Std.ExtTreeSet.ext_mem
  intro member
  have hmem := congrArg (member ∈ ·) hsame
  simpa using hmem

theorem Fit.eq_of_toFinset_eq {members' : List TypeId} (hfit : table.Fit members)
    (hfit' : table.Fit members') (hsame : members.toFinset = members'.toFinset) :
    members = members' :=
  eq_of_ordered hfit.ordered hfit'.ordered hsame

theorem Grows.parts (hgrows : table.Grows later) (hknown : table.Known type) :
    later.parts type = table.parts type := by
  have hmembers : later.members type = table.members type := by
    obtain ⟨shape, hshape⟩ := known_iff.mp hknown
    have hlater := hgrows _ _ hshape
    rw [TypeTable.members, TypeTable.members, shape_eq_ok_iff.mpr hshape,
      shape_eq_ok_iff.mpr hlater]
  rw [TypeTable.parts, TypeTable.parts, hmembers]

/-- The number of parts tells the empty type, plain types and unions apart. -/
theorem Sound.card_parts_cases (hsound : table.Sound) (hknown : table.Known type) :
    ((table.parts type).card = 0 ∧ type = noType) ∨
      ((table.parts type).card = 1 ∧ table.Plain type) ∨
      (2 ≤ (table.parts type).card ∧
        ∃ members, table.shapes[type.raw]? = some (.union members)) := by
  rcases hknown.cases with rfl | hplain | ⟨members, hshape⟩
  · rw [hsound.parts_noType]
    exact .inl ⟨rfl, rfl⟩
  · rw [hplain.parts]
    exact .inr (.inl ⟨rfl, hplain⟩)
  · rw [(hsound.fit hshape).parts hshape]
    exact .inr (.inr ⟨(hsound.fit hshape).two_le_card, members, hshape⟩)

theorem Sound.eq_of_parts_eq (hsound : table.Sound) (ha : table.Known a) (hb : table.Known b)
    (hparts : table.parts a = table.parts b) : a = b := by
  have hcard : (table.parts a).card = (table.parts b).card := by rw [hparts]
  rcases hsound.card_parts_cases ha with ⟨hcardA, hkindA⟩ | ⟨hcardA, hkindA⟩ | ⟨hcardA, hkindA⟩ <;>
    rcases hsound.card_parts_cases hb with ⟨hcardB, hkindB⟩ | ⟨hcardB, hkindB⟩ | ⟨hcardB, hkindB⟩ <;>
    try omega
  -- Only the cases are left where both types are of one kind.
  · rw [hkindA, hkindB]
  · rw [hkindA.parts, hkindB.parts] at hparts
    exact Finset.singleton_inj.mp hparts
  · obtain ⟨members, hshapeA⟩ := hkindA
    obtain ⟨members', hshapeB⟩ := hkindB
    have hfitA := hsound.fit hshapeA
    have hfitB := hsound.fit hshapeB
    rw [hfitA.parts hshapeA, hfitB.parts hshapeB] at hparts
    rw [hfitA.eq_of_toFinset_eq hfitB hparts] at hshapeA
    exact hsound.distinct hshapeA hshapeB

theorem Sound.members_facts (hsound : table.Sound) (hmembers : table.members type = .ok members) :
    table.parts type = members.toFinset.erase noType ∧
      ∀ member ∈ members, member ≠ noType → table.Plain member := by
  refine ⟨by rw [parts, hmembers], ?_⟩
  have hknown : table.Known type := by
    obtain ⟨shape, hshape, _⟩ := Except.bind_eq_ok_iff.mp hmembers
    exact known_iff.mpr ⟨shape, shape_eq_ok_iff.mp hshape⟩
  intro member hmember hne
  rcases hknown.cases with rfl | hplain | ⟨members', hshape⟩
  · rw [members_of_other hsound.empty fun members heq => by cases heq] at hmembers
    obtain rfl := Except.ok.inj hmembers
    exact absurd (List.mem_singleton.mp hmember) hne
  · obtain ⟨_, shape, hshape, hunion⟩ := id hplain
    rw [members_of_other hshape hunion] at hmembers
    obtain rfl := Except.ok.inj hmembers
    rw [List.mem_singleton.mp hmember]
    exact hplain
  · rw [members_of_union hshape] at hmembers
    obtain rfl := Except.ok.inj hmembers
    exact (hsound.fit hshape).plain member hmember

theorem Known.exists_members (hknown : table.Known type) :
    ∃ members, table.members type = .ok members := by
  obtain ⟨shape, hshape⟩ := known_iff.mp hknown
  rw [TypeTable.members, shape_eq_ok_iff.mpr hshape]
  cases shape <;> exact ⟨_, rfl⟩

theorem exists_membersOfAll {types : List TypeId} (hknown : ∀ type ∈ types, table.Known type) :
    ∃ members, table.membersOfAll types = .ok members := by
  obtain ⟨lists, hlists⟩ := Except.exists_mapM fun type htype => (hknown type htype).exists_members
  exact ⟨_, Except.bind_eq_ok_iff.mpr ⟨lists, hlists, rfl⟩⟩

/-- The members of several types are in order and plain, and are the parts of all of them. -/
theorem Sound.membersOfAll_facts (hsound : table.Sound) {types : List TypeId}
    (hall : table.membersOfAll types = .ok members) :
    (∃ set : Std.ExtTreeSet TypeId, set.toList = members) ∧
      (∀ member ∈ members, table.Plain member) ∧
      ∀ member, member ∈ members ↔ ∃ type ∈ types, member ∈ table.parts type := by
  obtain ⟨lists, hlists, hall⟩ := Except.bind_eq_ok_iff.mp hall
  obtain rfl := Except.ok.inj hall
  have hmem : ∀ member,
      member ∈ (Std.ExtTreeSet.ofList (lists.flatten.filter (· ≠ noType)) compare).toList ↔
        member ≠ noType ∧ ∃ list ∈ lists, member ∈ list := by
    intro member
    rw [Std.ExtTreeSet.mem_toList, Std.ExtTreeSet.mem_ofList, List.contains_iff_mem,
      List.mem_filter, List.mem_flatten, decide_eq_true_eq, and_comm]
  refine ⟨⟨_, rfl⟩, ?_, ?_⟩
  · intro member hmember
    obtain ⟨hne, list, hlist, hmember⟩ := (hmem member).mp hmember
    obtain ⟨type, _, hmembers⟩ := (Except.mem_of_mapM hlists list).mp hlist
    exact (hsound.members_facts hmembers).2 member hmember hne
  · intro member
    rw [hmem]
    constructor
    · rintro ⟨hne, list, hlist, hmember⟩
      obtain ⟨type, htype, hmembers⟩ := (Except.mem_of_mapM hlists list).mp hlist
      refine ⟨type, htype, ?_⟩
      rw [(hsound.members_facts hmembers).1]
      exact Finset.mem_erase.mpr ⟨hne, List.mem_toFinset.mpr hmember⟩
    · rintro ⟨type, htype, hmember⟩
      rw [parts] at hmember
      split at hmember
      next list hmembers =>
        obtain ⟨hne, hmember⟩ := Finset.mem_erase.mp hmember
        exact ⟨hne, list, (Except.mem_of_mapM hlists list).mpr ⟨type, htype, hmembers⟩,
          List.mem_toFinset.mp hmember⟩
      next => exact absurd hmember (Finset.notMem_empty member)

/-- A type of given parts, and the table after it was asked for. -/
structure Makes (table : TypeTable) (consists : Finset TypeId) (type : TypeId)
    (later : TypeTable) : Prop where
  grows : table.Grows later
  sound : later.Sound
  known : later.Known type
  parts : later.parts type = consists
  settled : table.Known type → later = table

/-- A table that has the type already gives it, and does not change. -/
theorem Makes.again {consists : Finset TypeId} (hmakes : table.Makes consists a later)
    (hknown : table.Known type) (hparts : table.parts type = consists) :
    a = type ∧ later = table := by
  have hsame : a = type := by
    apply hmakes.sound.eq_of_parts_eq hmakes.known (hmakes.grows.known hknown)
    rw [hmakes.parts, hmakes.grows.parts hknown, hparts]
  refine ⟨hsame, hmakes.settled ?_⟩
  rw [hsame]
  exact hknown

theorem Sound.makes_self (hsound : table.Sound) (hknown : table.Known type) :
    table.Makes (table.parts type) type table :=
  ⟨.refl table, hsound, hknown, rfl, fun _ => rfl⟩

theorem Sound.union_makes (hsound : table.Sound) {types : List TypeId}
    (hall : table.membersOfAll types = .ok members) :
    ∃ type later, table.union types = .ok (type, later) ∧
      table.Makes members.toFinset type later := by
  obtain ⟨hordered, hplain, _⟩ := hsound.membersOfAll_facts hall
  rw [union_eq, hall, Except.ok_bind]
  match members, hordered, hplain with
  | [], _, _ =>
    refine ⟨noType, table, rfl, ?_⟩
    rw [List.toFinset_nil, ← hsound.parts_noType]
    exact hsound.makes_self hsound.known_noType
  | [only], _, hplain =>
    have honly := hplain only List.mem_cons_self
    refine ⟨only, table, rfl, ?_⟩
    have hparts : [only].toFinset = table.parts only := by
      rw [honly.parts]
      rfl
    rw [hparts]
    exact hsound.makes_self honly.known
  | first :: second :: others, hordered, hplain =>
    have hfit : table.Fit (first :: second :: others) :=
      ⟨hordered, by simp, hplain⟩
    have hinterned := table.interned (.union (first :: second :: others))
    have hlater : (table.intern (.union (first :: second :: others))).2.Sound :=
      hsound.intern fun members heq => by
        cases heq
        exact hfit
    refine ⟨_, _, rfl, hinterned.grows, hlater, known_iff.mpr ⟨_, hinterned.shape⟩, ?_,
      hinterned.settled⟩
    exact (hlater.fit hinterned.shape).parts hinterned.shape

theorem Sound.leastSupertype_makes (hsound : table.Sound) (ha : table.Known a)
    (hb : table.Known b) :
    ∃ type later, table.leastSupertype a b = .ok (type, later) ∧
      table.Makes (table.parts a ∪ table.parts b) type later := by
  rw [leastSupertype_eq]
  by_cases hsame : a = b
  · rw [if_pos hsame]
    refine ⟨a, table, rfl, ?_⟩
    rw [← hsame, Finset.union_self]
    exact hsound.makes_self ha
  · rw [if_neg hsame]
    have hknown : ∀ type ∈ [a, b], table.Known type :=
      List.forall_mem_cons.mpr ⟨ha, List.forall_mem_singleton.mpr hb⟩
    obtain ⟨members, hall⟩ := exists_membersOfAll hknown
    obtain ⟨type, later, hunion, hmakes⟩ := hsound.union_makes hall
    refine ⟨type, later, hunion, ?_⟩
    have hparts : members.toFinset = table.parts a ∪ table.parts b := by
      ext member
      rw [List.mem_toFinset, (hsound.membersOfAll_facts hall).2.2, Finset.mem_union]
      simp
    rw [← hparts]
    exact hmakes

/-- A union gives an old type and keeps the table, or interns a shape. -/
theorem union_cases {types : List TypeId} (hunion : table.union types = .ok (type, later)) :
    later = table ∨ ∃ members, later = (table.intern (.union members)).2 := by
  rw [union_eq] at hunion
  obtain ⟨members, _, hunion⟩ := Except.bind_eq_ok_iff.mp hunion
  match members with
  | [] | [_] =>
    cases hunion
    exact .inl rfl
  | first :: second :: rest =>
    have hintern : table.intern (.union (first :: second :: rest)) = (type, later) :=
      Except.ok.inj hunion
    exact .inr ⟨_, by rw [hintern]⟩

theorem leastSupertype_cases (hjoin : table.leastSupertype a b = .ok (type, later)) :
    later = table ∨ ∃ members, later = (table.intern (.union members)).2 := by
  rw [leastSupertype_eq] at hjoin
  split at hjoin
  · cases hjoin
    exact .inl rfl
  · exact union_cases hjoin

inductive Built : TypeTable → Prop where
  | basic : Built basic
  | function {table : TypeTable} (receiver : Option TypeId) (hbuilt : Built table) :
    Built (table.function receiver).2
  | object {table : TypeTable} (prototype : Option TypeId) (hbuilt : Built table) :
    Built (table.object prototype).2
  | addClass {table : TypeTable} (superclass : Option TypeId) (hbuilt : Built table) :
    Built (table.addClass superclass).2
  | union {table later : TypeTable} {types : List TypeId} {type : TypeId} (hbuilt : Built table)
    (hunion : table.union types = .ok (type, later)) : Built later
  | leastSupertype {table later : TypeTable} {a b type : TypeId} (hbuilt : Built table)
    (hjoin : table.leastSupertype a b = .ok (type, later)) : Built later

theorem Sound.of_union (hsound : table.Sound) {types : List TypeId}
    (hunion : table.union types = .ok (type, later)) : later.Sound := by
  obtain ⟨members, hall, _⟩ := Except.bind_eq_ok_iff.mp (union_eq table types ▸ hunion)
  obtain ⟨type', later', hunion', hmakes⟩ := hsound.union_makes hall
  obtain ⟨rfl, rfl⟩ := Prod.mk.inj (Except.ok.inj (hunion.symm.trans hunion'))
  exact hmakes.sound

theorem Sound.of_leastSupertype (hsound : table.Sound)
    (hjoin : table.leastSupertype a b = .ok (type, later)) : later.Sound := by
  rw [leastSupertype_eq] at hjoin
  split at hjoin
  · cases hjoin
    exact hsound
  · exact hsound.of_union hjoin

theorem Sound.addClass (hsound : table.Sound) (superclass : Option TypeId) :
    (table.addClass superclass).2.Sound := by
  have hconstructor : Sound ⟨table.shapes.push
      (.constructor ⟨table.shapes.size + 1⟩ superclass)⟩ :=
    hsound.push fun members heq => by cases heq
  exact hconstructor.push fun members (heq : Shape.instances _ = _) => by cases heq

theorem sound_basic : basic.Sound := by
  have honly : ∀ (i : Nat) members, basic.shapes[i]? ≠ some (.union members) := by
    intro i members hshape
    match i with
    | 0 | 1 | 2 | 3 => cases hshape
    | i + 4 => simp [basic] at hshape
  refine ⟨rfl, ?_, ?_⟩
  · intro type members hshape
    exact absurd hshape (honly _ _)
  · intro a b members hshape _
    exact absurd hshape (honly _ _)

theorem Built.sound (hbuilt : table.Built) : table.Sound := by
  induction hbuilt with
  | basic => exact sound_basic
  | function receiver _ ih => exact ih.intern fun members heq => by cases heq
  | object prototype _ ih => exact ih.intern fun members heq => by cases heq
  | addClass superclass _ ih => exact ih.addClass superclass
  | union _ hunion ih => exact ih.of_union hunion
  | leastSupertype _ hjoin ih => exact ih.of_leastSupertype hjoin

end FlowTyping.TypeTable
