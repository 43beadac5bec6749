import FlowTyping.Flow.Join
import FlowTyping.Proofs.Attempt
import FlowTyping.Proofs.Except
import FlowTyping.Proofs.Flow.Slots

/-!
# Branches of a join

The three ways in which a join ends: with its first branch if no branch is reachable, with the only
branch that is, or with the joined slots of several. A joined slot was refined on some branch, and its type
is made of what the branches have and of the declared type.
-/
namespace FlowTyping.Flow
open Attempt
variable {Λ : Type} [TypeLattice Λ] {forest : Forest} {flows reachable : List Flow}

def isReachable (forest : Forest) (flow : Flow) : Bool :=
  match flow.isBottom forest with
  | .ok bottom => !bottom
  | .error _ => false

/-- The branches that count in a join: those that are reachable, or the first if none is. -/
def branchesOf {α : Type} (reachable : α → Bool) (all : List α) : List α :=
  match all.filter reachable with
  | [] => all.take 1
  | reached => reached

theorem mapM_branchesOf {α β : Type} {f : α → Except Fault β} {as : List α} {bs : List β}
    {asks : α → Bool} {passes : β → Bool} (hmap : as.mapM f = .ok bs)
    (htest : ∀ a b, f a = .ok b → asks a = passes b) :
    (branchesOf asks as).mapM f = .ok (branchesOf passes bs) := by
  have hfilter := Except.mapM_filter hmap htest
  have hreached := Except.mapM_eq_ok_iff.mp hfilter
  unfold branchesOf
  cases has : as.filter asks with
  | nil =>
    rw [has, List.forall₂_nil_left_iff] at hreached
    rw [hreached]
    cases Except.mapM_eq_ok_iff.mp hmap with
    | nil => rfl
    | cons hfirst _ => exact Except.mapM_eq_ok_iff.mpr (.cons hfirst .nil)
  | cons a rest =>
    rw [has] at hfilter hreached
    obtain ⟨b, rest', _, _, hbs⟩ := List.forall₂_cons_left_iff.mp hreached
    rw [hbs] at hfilter ⊢
    exact hfilter

def refinesIn (flow : Flow) (forest : Forest) (scope : ScopeId) (name : Name) : Bool :=
  match flow.refinementsIn forest scope with
  | .ok slots => slots.contains name
  | .error _ => false

theorem refinesIn_eq_true {flow : Flow} {scope : ScopeId} {name : Name} :
    flow.refinesIn forest scope name = true ↔
      ∃ slots, flow.refinementsIn forest scope = .ok slots ∧ name ∈ slots := by
  unfold refinesIn
  split <;> simp_all

theorem refinementsIn_self (flow : Flow) (forest : Forest) :
    flow.refinementsIn forest flow.scope = .ok flow.refinements :=
  Slots.retain_of_forall fun _ => Forest.sameBinding_self ..

theorem refinesIn_self {flow : Flow} {name : Name} (hname : name ∈ flow.slotNames) :
    flow.refinesIn forest flow.scope name = true :=
  refinesIn_eq_true.mpr ⟨_, flow.refinementsIn_self forest, Std.ExtTreeMap.mem_keys.mp hname⟩

theorem live_eq_filter (hlive : live forest flows = .ok reachable) :
    reachable = flows.filter (isReachable forest) := by
  induction flows generalizing reachable with
  | nil => exact (Except.ok.inj hlive).symm
  | cons flow flows ih =>
    obtain ⟨bottom, hbottom, hlive⟩ := Except.bind_eq_ok_iff.mp hlive
    obtain ⟨rest, hrest, hlive⟩ := Except.bind_eq_ok_iff.mp hlive
    rw [List.filter_cons, ← ih hrest, ← Except.ok.inj hlive, isReachable, hbottom]
    cases bottom <;> rfl

def joinSeveral (stamp : Nat) (forest : Forest) (flow : Flow) (others : List Flow) :
    Attempt Fault Λ Flow := do
  let scope ← Attempt.answer (scopeAround forest flow.scope others)
  let branches ←
    Attempt.answer ((flow :: others).mapM fun branch => branch.refinementsIn forest scope)
  let names := (branches.foldl (· ∪ ·) (∅ : Slots)).keys
  return overEntry stamp scope (← joinedSlots forest scope branches names)

section
variable {first : Flow} {stamp : Nat}

theorem join_of_live_nil (hlive : live forest (first :: flows) = .ok []) :
    (join stamp forest (first :: flows) : Attempt Fault Λ Flow) = pure first := by
  rw [join, hlive]
  rfl

theorem join_of_live_singleton {only : Flow} (hlive : live forest (first :: flows) = .ok [only]) :
    (join stamp forest (first :: flows) : Attempt Fault Λ Flow) = pure only := by
  rw [join, hlive]
  rfl

theorem join_of_live_several {flow next : Flow} {others : List Flow}
    (hlive : live forest (first :: flows) = .ok (flow :: next :: others)) :
    (join stamp forest (first :: flows) : Attempt Fault Λ Flow) =
      joinSeveral stamp forest flow (next :: others) := by
  rw [join, hlive]
  rfl

end

theorem mem_foldl_union {branches : List Slots} {start : Slots} {name : Name} :
    name ∈ branches.foldl (· ∪ ·) start ↔ name ∈ start ∨ ∃ slots ∈ branches, name ∈ slots := by
  induction branches generalizing start with
  | nil => simp
  | cons slots branches ih =>
    rw [List.foldl_cons, ih, Std.ExtTreeMap.mem_union_iff]
    simp [or_assoc]

/-- A joined slot has the type that the fold over the branches has for its name. -/
theorem joinedType_of_joinedSlots {scope : ScopeId} {branches : List Slots} {names : List Name}
    {types later : Λ} {slots : Slots}
    (hrun : (joinedSlots forest scope branches names).run.run types = (.ok slots, later))
    {name : Name} {type : TypeId} (htype : slots[name]? = some type) :
    name ∈ names ∧ ∃ declared, forest.declaredType scope name = .ok declared ∧
      ∃ before after : Λ, (joinedType declared name branches).run.run before =
        (.ok (some type), after) := by
  induction names generalizing types later slots with
  | nil =>
    rw [joinedSlots, run_pure_eq_ok_iff] at hrun
    rw [← hrun.1] at htype
    simp at htype
  | cons first names ih =>
    rw [joinedSlots] at hrun
    obtain ⟨declared, _, hdeclared, hrun⟩ := run_bind_eq_ok_iff.mp hrun
    obtain ⟨joined, _, hjoined, hrun⟩ := run_bind_eq_ok_iff.mp hrun
    obtain ⟨current, _, _, hrun⟩ := run_bind_eq_ok_iff.mp hrun
    obtain ⟨rest, _, hrest, hrun⟩ := run_bind_eq_ok_iff.mp hrun
    -- The slot of the first name, if it is kept, is laid over those of the others.
    have hlater : rest[name]? = some type →
        name ∈ first :: names ∧ ∃ declared, forest.declaredType scope name = .ok declared ∧
          ∃ before after : Λ, (joinedType declared name branches).run.run before =
            (.ok (some type), after) := by
      intro htype
      obtain ⟨hname, hfold⟩ := ih hrest htype
      exact ⟨List.mem_cons_of_mem first hname, hfold⟩
    cases joined with
    | none =>
      rw [← (run_pure_eq_ok_iff.mp hrun).1] at htype
      exact hlater htype
    | some made =>
      rw [← (run_pure_eq_ok_iff.mp hrun).1] at htype
      split at htype
      next => exact hlater htype
      next =>
        rw [Std.ExtTreeMap.getElem?_insert] at htype
        split at htype
        next heq =>
          obtain rfl := Std.LawfulEqOrd.eq_of_compare heq
          obtain rfl := Option.some.inj htype
          have hfold := run_failing_eq_ok_iff.mp hjoined
          exact ⟨List.mem_cons_self, declared, (run_answer_eq_ok_iff.mp hdeclared).1, _, _, hfold⟩
        next => exact hlater htype

/-- What a join that succeeds has made, and of what. -/
theorem join_cases {stamp : Nat} {types later : Λ} {made : Flow}
    (hrun : (join stamp forest flows).run.run types = (.ok made, later)) :
    (∃ others, flows = made :: others ∧ live forest flows = .ok [] ∧ later = types) ∨
      (live forest flows = .ok [made] ∧ later = types) ∨
      ∃ flow next others, live forest flows = .ok (flow :: next :: others) ∧
        (joinSeveral stamp forest flow (next :: others)).run.run types = (.ok made, later) := by
  cases flows with
  | nil => cases hrun
  | cons first flows =>
    cases hlive : live forest (first :: flows) with
    | error fault =>
      rw [join, hlive] at hrun
      cases hrun
    | ok reachable =>
      match reachable with
      | [] =>
        rw [join_of_live_nil hlive, run_pure_eq_ok_iff] at hrun
        obtain ⟨rfl, rfl⟩ := hrun
        exact .inl ⟨flows, rfl, rfl, rfl⟩
      | [only] =>
        rw [join_of_live_singleton hlive, run_pure_eq_ok_iff] at hrun
        obtain ⟨rfl, rfl⟩ := hrun
        exact .inr (.inl ⟨rfl, rfl⟩)
      | flow :: next :: others =>
        rw [join_of_live_several hlive] at hrun
        exact .inr (.inr ⟨flow, next, others, rfl, hrun⟩)

/-- What a join that succeeds has made, by the branches that are reachable. -/
theorem join_by_reachable {stamp : Nat} {types later : Λ} {made : Flow}
    (hrun : (join stamp forest flows).run.run types = (.ok made, later)) :
    match flows.filter (isReachable forest) with
    | [] => flows.head? = some made
    | [only] => only = made
    | flow :: next :: others =>
      (joinSeveral stamp forest flow (next :: others)).run.run types = (.ok made, later) := by
  rcases join_cases hrun with ⟨_, rfl, hlive, _⟩ | ⟨hlive, _⟩ | ⟨flow, next, others, hlive, hrun⟩ <;>
    rw [← live_eq_filter hlive]
  · rfl
  · exact hrun

private theorem exists_branch_of_joinSeveral {stamp : Nat} {types later : Λ} {flow made : Flow}
    {others : List Flow}
    (hrun : (joinSeveral stamp forest flow others).run.run types = (.ok made, later))
    {name : Name} (hname : name ∈ made.slotNames) :
    ∃ branch ∈ flow :: others, branch.refinesIn forest made.scope name = true := by
  obtain ⟨scope, _, _, hrun⟩ := run_bind_eq_ok_iff.mp hrun
  obtain ⟨branches, _, hbranches, hrun⟩ := run_bind_eq_ok_iff.mp hrun
  obtain ⟨slots, _, hslots, hrun⟩ := run_bind_eq_ok_iff.mp hrun
  obtain ⟨rfl, _⟩ := run_pure_eq_ok_iff.mp hrun
  rw [mem_slotNames, refinement?_overEntry] at hname
  obtain ⟨type, htype⟩ := Option.isSome_iff_exists.mp hname
  have hjoined := Std.ExtTreeMap.mem_keys.mp (joinedType_of_joinedSlots hslots htype).1
  rcases mem_foldl_union.mp hjoined with hempty | ⟨refined, hrefined, hmem⟩
  · simp at hempty
  · obtain ⟨branch, hbranch, hrefines⟩ :=
      (Except.mem_of_mapM (run_answer_eq_ok_iff.mp hbranches).1 refined).mp hrefined
    exact ⟨branch, hbranch, refinesIn_eq_true.mpr ⟨refined, hrefines, hmem⟩⟩

/-- What a join refines is refined on a branch that counts. -/
theorem exists_branch_of_join {stamp : Nat} {types later : Λ} {made : Flow}
    (hrun : (join stamp forest flows).run.run types = (.ok made, later)) {name : Name}
    (hname : name ∈ made.slotNames) :
    ∃ branch ∈ branchesOf (isReachable forest) flows,
      branch.refinesIn forest made.scope name = true := by
  rcases join_cases hrun with ⟨others, rfl, hlive, _⟩ | ⟨hlive, _⟩ | ⟨_, _, _, hlive, hrun⟩
  · refine ⟨made, ?_, refinesIn_self hname⟩
    rw [branchesOf, ← live_eq_filter hlive]
    exact List.mem_singleton_self made
  · refine ⟨made, ?_, refinesIn_self hname⟩
    rw [branchesOf, ← live_eq_filter hlive]
    exact List.mem_singleton_self made
  · obtain ⟨branch, hbranch, hrefines⟩ := exists_branch_of_joinSeveral hrun hname
    refine ⟨branch, ?_, hrefines⟩
    rw [branchesOf, ← live_eq_filter hlive]
    exact hbranch

/-! ## Types that joins make -/

/-- A type that joins make of given ones. -/
inductive Joined (Λ : Type) [TypeLattice Λ] (given : TypeId → Prop) : TypeId → Prop where
  | given {type : TypeId} (hgiven : given type) : Joined Λ given type
  | join {a b type : TypeId} {types later : Λ} (ha : Joined Λ given a) (hb : Joined Λ given b)
    (hrun : (TypeLattice.leastSupertype a b).run.run types = (.ok type, later)) :
    Joined Λ given type

variable {given given' : TypeId → Prop}

theorem Joined.trans {type : TypeId} (hjoined : Joined Λ given type)
    (hgiven : ∀ type, given type → Joined Λ given' type) : Joined Λ given' type := by
  induction hjoined with
  | given hgiven' => exact hgiven _ hgiven'
  | join _ _ hrun iha ihb => exact .join iha ihb hrun

theorem Joined.of_joinSlots {a b joined : Option TypeId} {types later : Λ}
    (ha : ∀ type ∈ a, Joined Λ given type) (hb : ∀ type ∈ b, Joined Λ given type)
    (hrun : (TypeLattice.joinSlots a b).run.run types = (.ok joined, later)) :
    ∀ type ∈ joined, Joined Λ given type := by
  match a, b with
  | none, none | none, some typeB =>
    rw [← (run_pure_eq_ok_iff.mp hrun).1]
    exact hb
  | some typeA, none =>
    rw [← (run_pure_eq_ok_iff.mp hrun).1]
    exact ha
  | some typeA, some typeB =>
    obtain ⟨made, hmade, rfl⟩ := run_map_eq_ok_iff.mp hrun
    intro type htype
    obtain rfl := Option.some.inj htype
    exact .join (ha typeA rfl) (hb typeB rfl) hmade

theorem Joined.of_joinedType {declared joined : Option TypeId} {name : Name}
    {branches : List Slots} {types later : Λ}
    (hbranches : ∀ slots ∈ branches, ∀ type ∈ slots[name]?.or declared, Joined Λ given type)
    (hrun : (joinedType declared name branches).run.run types = (.ok joined, later)) :
    ∀ type ∈ joined, Joined Λ given type := by
  unfold joinedType at hrun
  have hstart : ∀ type ∈ (none : Option TypeId), Joined Λ given type := by simp
  generalize (none : Option TypeId) = start at hrun hstart
  induction branches generalizing start types with
  | nil =>
    rw [← (run_pure_eq_ok_iff.mp hrun).1]
    exact hstart
  | cons slots branches ih =>
    rw [List.foldlM_cons] at hrun
    obtain ⟨next, between, hnext, hrun⟩ := run_bind_eq_ok_iff.mp hrun
    obtain ⟨hslots, hbranches⟩ := List.forall_mem_cons.mp hbranches
    exact ih hbranches next hrun (.of_joinSlots hstart hslots hnext)

/-- A join gives a name a type that is made by joins of what the branches that count have for it, as
they are seen from the scope of the join, and of its declared type. -/
theorem joined_of_join {stamp : Nat} {types later : Λ} {made : Flow}
    (hrun : (join stamp forest flows).run.run types = (.ok made, later)) {name : Name}
    {type : TypeId} (htype : made.refinement? name = some type) :
    Joined Λ (fun given => (∃ branch ∈ branchesOf (isReachable forest) flows,
        ∃ slots, branch.refinementsIn forest made.scope = .ok slots ∧ slots[name]? = some given) ∨
      forest.declaredType made.scope name = .ok (some given)) type := by
  have hself : made.refinements[name]? = some type := by rw [getElem?_refinements, htype]
  rcases join_cases hrun with ⟨others, rfl, hlive, _⟩ | ⟨hlive, _⟩ | ⟨_, _, _, hlive, hrun⟩
  · refine .given (.inl ⟨made, ?_, _, made.refinementsIn_self forest, hself⟩)
    rw [branchesOf, ← live_eq_filter hlive]
    exact List.mem_singleton_self made
  · refine .given (.inl ⟨made, ?_, _, made.refinementsIn_self forest, hself⟩)
    rw [branchesOf, ← live_eq_filter hlive]
    exact List.mem_singleton_self made
  · rw [branchesOf, ← live_eq_filter hlive]
    obtain ⟨scope, _, _, hrun⟩ := run_bind_eq_ok_iff.mp hrun
    obtain ⟨branches, _, hbranches, hrun⟩ := run_bind_eq_ok_iff.mp hrun
    obtain ⟨slots, _, hslots, hrun⟩ := run_bind_eq_ok_iff.mp hrun
    obtain ⟨rfl, _⟩ := run_pure_eq_ok_iff.mp hrun
    rw [refinement?_overEntry] at htype
    obtain ⟨_, declared, hdeclared, _, _, hfold⟩ := joinedType_of_joinedSlots hslots htype
    refine Joined.of_joinedType (fun seen hseen given hgiven => .given ?_) hfold type rfl
    cases hslot : seen[name]? with
    | some refined =>
      obtain ⟨branch, hbranch, hrefines⟩ :=
        (Except.mem_of_mapM (run_answer_eq_ok_iff.mp hbranches).1 seen).mp hseen
      rw [hslot] at hgiven
      obtain rfl := Option.some.inj hgiven
      exact .inl ⟨branch, hbranch, seen, hrefines, hslot⟩
    | none =>
      rw [hslot] at hgiven
      obtain rfl : declared = some given := hgiven
      exact .inr hdeclared

end FlowTyping.Flow
