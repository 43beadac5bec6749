import FlowTyping.Proofs.Flow.Seen
import FlowTyping.Proofs.Forest.Climbing

/-!
# The scope around several others

A common ancestor is the nearest scope around two others. What is nearest around several scopes does
not depend on their order, nor on how they are put together. So the search for it is a partial
semilattice, and joins find the same scope in whatever order they take their branches.
-/
namespace FlowTyping.Forest
variable {forest : Forest} {a b c : ScopeId} {ids others : List ScopeId}

def commonAncestor? (forest : Forest) :
    Option ScopeId → Option ScopeId → Except Fault (Option ScopeId)
  | some a, some b => forest.commonAncestor a b
  | _, _ => .ok none

theorem Encloses.congr {answer : Option ScopeId} (hanswer : forest.Encloses ids answer)
    (hsame : ∀ id, id ∈ others ↔ id ∈ ids) : forest.Encloses others answer := by
  have hall : ∀ id, (∀ inner ∈ others, id ∈ forest.path inner) ↔
      ∀ inner ∈ ids, id ∈ forest.path inner :=
    fun id => forall_congr' fun inner => imp_congr_left (hsame inner)
  cases answer with
  | none =>
    intro id hid
    exact hanswer id ((hall id).mp hid)
  | some around => exact ⟨hanswer.1, fun id => (hanswer.2 id).trans (hall id).symm⟩

theorem encloses_singleton (ha : a.raw < forest.scopes.size) : forest.Encloses [a] (some a) :=
  ⟨ha, nearestAround_singleton a⟩

/-- The common ancestor of what is around some scopes and around others is around all of them. -/
theorem Sound.exists_commonAncestor? (hsound : forest.Sound) {answer other : Option ScopeId}
    (hanswer : forest.Encloses ids answer) (hother : forest.Encloses others other) :
    ∃ joined, forest.commonAncestor? answer other = .ok joined ∧
      forest.Encloses (ids ++ others) joined := by
  have hsplit : ∀ id, (∀ inner ∈ ids ++ others, id ∈ forest.path inner) ↔
      (∀ inner ∈ ids, id ∈ forest.path inner) ∧ ∀ inner ∈ others, id ∈ forest.path inner :=
    fun id => List.forall_mem_append
  cases answer with
  | none => exact ⟨none, rfl, fun id hid => hanswer id ((hsplit id).mp hid).1⟩
  | some around =>
    cases other with
    | none => exact ⟨none, rfl, fun id hid => hother id ((hsplit id).mp hid).2⟩
    | some around' =>
      obtain ⟨joined, hjoined, hencloses⟩ := hsound.exists_commonAncestor hanswer.1 hother.1
      have hall : ∀ id, (∀ inner ∈ ids ++ others, id ∈ forest.path inner) ↔
          ∀ inner ∈ [around, around'], id ∈ forest.path inner := by
        intro id
        rw [hsplit, ← hanswer.2 id, ← hother.2 id]
        simp
      refine ⟨joined, hjoined, ?_⟩
      cases joined with
      | none => exact fun id hid => hencloses id ((hall id).mp hid)
      | some _ => exact ⟨hencloses.1, fun id => (hencloses.2 id).trans (hall id).symm⟩

theorem Sound.commonAncestor_comm (hsound : forest.Sound) (ha : a.raw < forest.scopes.size)
    (hb : b.raw < forest.scopes.size) :
    forest.commonAncestor a b = forest.commonAncestor b a := by
  obtain ⟨answer, hanswer, hencloses⟩ := hsound.exists_commonAncestor ha hb
  obtain ⟨answer', hanswer', hencloses'⟩ := hsound.exists_commonAncestor hb ha
  have hswapped := hencloses'.congr fun id => (List.Perm.swap b a []).mem_iff
  rw [hanswer, hanswer', hsound.encloses_unique hencloses hswapped]

theorem Sound.commonAncestor_self (hsound : forest.Sound) (ha : a.raw < forest.scopes.size) :
    forest.commonAncestor a a = .ok (some a) := by
  obtain ⟨answer, hanswer, hencloses⟩ := hsound.exists_commonAncestor ha ha
  have hself : forest.Encloses [a, a] (some a) := (encloses_singleton ha).congr (by simp)
  rw [hanswer, hsound.encloses_unique hencloses hself]

theorem Sound.commonAncestor_assoc (hsound : forest.Sound) (ha : a.raw < forest.scopes.size)
    (hb : b.raw < forest.scopes.size) (hc : c.raw < forest.scopes.size) :
    (forest.commonAncestor a b >>= (forest.commonAncestor? · (some c))) =
      (forest.commonAncestor b c >>= (forest.commonAncestor? (some a) ·)) := by
  obtain ⟨first, hfirst, henclosesAB⟩ := hsound.exists_commonAncestor ha hb
  obtain ⟨second, hsecond, henclosesBC⟩ := hsound.exists_commonAncestor hb hc
  obtain ⟨left, hleft, henclosesL⟩ :=
    hsound.exists_commonAncestor? henclosesAB (encloses_singleton hc)
  obtain ⟨right, hright, henclosesR⟩ :=
    hsound.exists_commonAncestor? (encloses_singleton ha) henclosesBC
  rw [hfirst, hsecond, Except.ok_bind, Except.ok_bind, hleft, hright]
  exact congrArg _ (hsound.encloses_unique henclosesL henclosesR)

/-- Paths that share a scope end in the same root. -/
theorem Sound.apart_iff (hsound : forest.Sound) (ha : a.raw < forest.scopes.size) :
    (∀ id ∈ forest.path a, id ∉ forest.path b) ↔
      (forest.path a).getLast? ≠ (forest.path b).getLast? := by
  have hroot : ∀ {id inner}, id ∈ forest.path inner →
      (forest.path inner).getLast? = (forest.path id).getLast? := by
    intro id inner hid
    obtain ⟨hlt, _, before, hsplit⟩ := hsound.mem_path_facts hid
    have hlast : (forest.path id).getLast?.isSome := by
      rw [List.getLast?_isSome]
      exact List.ne_nil_of_mem (mem_path_self hlt)
    rw [← hsplit, List.getLast?_append, Option.or_of_isSome hlast]
  constructor
  · intro hapart hsame
    obtain ⟨root, hlast⟩ :=
      Option.isSome_iff_exists.mp (List.getLast?_isSome.mpr (List.ne_nil_of_mem (mem_path_self ha)))
    exact hapart root (List.mem_of_getLast? hlast) (List.mem_of_getLast? (hsame ▸ hlast))
  · intro hne id hidA hidB
    exact hne ((hroot hidA).trans (hroot hidB).symm)

/-- What makes an answer the nearest scope that two lists of ancestors have in common. -/
structure NearestCommon (forest : Forest) (as bs : List ScopeId) (answer : Option ScopeId) :
    Prop where
  found : ∀ c, answer = some c ↔ c ∈ as ∧ c ∈ bs ∧
    ∃ cs, forest.ancestors c = .ok cs ∧ ∀ id ∈ as, id ∈ bs → id ∈ cs
  absent : answer = none ↔ ∀ id ∈ as, id ∉ bs
  roots : (∀ id ∈ as, id ∉ bs) ↔ as.getLast? ≠ bs.getLast?

theorem Sound.nearestCommon (hsound : forest.Sound) (ha : a.raw < forest.scopes.size)
    {answer : Option ScopeId} (hanswer : forest.Encloses [a, b] answer) :
    forest.NearestCommon (forest.path a) (forest.path b) answer := by
  have hall : ∀ id, (∀ inner ∈ [a, b], id ∈ forest.path inner) ↔
      id ∈ forest.path a ∧ id ∈ forest.path b := by simp
  refine ⟨fun c => ?_, ?_, hsound.apart_iff ha⟩
  · constructor
    · rintro rfl
      obtain ⟨hc, hnear⟩ := hanswer
      obtain ⟨hinA, hinB⟩ := (hall c).mp ((hnear c).mp (mem_path_self hc))
      refine ⟨hinA, hinB, forest.path c, ancestors_eq_path hc, fun id hidA hidB => ?_⟩
      exact (hnear id).mpr ((hall id).mpr ⟨hidA, hidB⟩)
    · rintro ⟨hinA, hinB, cs, hcs, hcommon⟩
      have hc := (hsound.mem_path_facts hinA).1
      obtain rfl := Except.ok.inj ((ancestors_eq_path hc).symm.trans hcs)
      have hencloses : forest.Encloses [a, b] (some c) := by
        refine ⟨hc, fun id => ?_⟩
        rw [hall]
        exact ⟨fun hid => ⟨hsound.mem_path_trans hinA hid, hsound.mem_path_trans hinB hid⟩,
          fun hid => hcommon id hid.1 hid.2⟩
      exact hsound.encloses_unique hanswer hencloses
  · cases answer with
    | none => exact iff_of_true rfl fun id hidA hidB => hanswer id ((hall id).mpr ⟨hidA, hidB⟩)
    | some c =>
      obtain ⟨hinA, hinB⟩ := (hall c).mp ((hanswer.2 c).mp (mem_path_self hanswer.1))
      exact iff_of_false (by simp) fun hapart => hapart c hinA hinB

/-- Joins find the same scope in whatever order they take the reachable branches. -/
theorem Sound.scopeAround_perm (hsound : forest.Sound) {flows flows' rest rest' : List Flow}
    {first first' : Flow} (hscopes : ∀ flow ∈ flows, flow.scope.raw < forest.scopes.size)
    (hperm : flows.Perm flows') (hlive : Flow.live forest flows = .ok (first :: rest))
    (hlive' : Flow.live forest flows' = .ok (first' :: rest')) :
    ∃ around, Flow.scopeAround forest first.scope rest = .ok around ∧
      Flow.scopeAround forest first'.scope rest' = .ok around := by
  have hscopes' : ∀ flow ∈ flows', flow.scope.raw < forest.scopes.size :=
    fun flow hflow => hscopes flow (hperm.mem_iff.mpr hflow)
  rw [Flow.live_eq_ok hscopes, Except.ok.injEq] at hlive
  rw [Flow.live_eq_ok hscopes', Except.ok.injEq] at hlive'
  have hsame : (first :: rest).Perm (first' :: rest') := by
    rw [← hlive, ← hlive']
    exact hperm.filter _
  have hreachable : ∀ flow ∈ first :: rest, forest.Live flow.scope := by
    rw [← hlive]
    exact Flow.live_of_mem_filter
  obtain ⟨hfirst, hrest⟩ := List.forall_mem_cons.mp hreachable
  obtain ⟨hfirst', hrest'⟩ := List.forall_mem_cons.mp
    fun flow hflow => hreachable flow (hsame.mem_iff.mpr hflow)
  obtain ⟨around, haround, hlivesA, hnear⟩ := Flow.scopeAround_spec hsound hfirst hrest
  obtain ⟨around', haround', hlivesB, hnear'⟩ := Flow.scopeAround_spec hsound hfirst' hrest'
  have hencloses : forest.Encloses (first.scope :: rest.map Flow.scope) (some around) :=
    ⟨hlivesA.lt_size, hnear⟩
  have hencloses' : forest.Encloses (first'.scope :: rest'.map Flow.scope) (some around') :=
    ⟨hlivesB.lt_size, hnear'⟩
  have hagain := hencloses'.congr fun _ => (hsame.map Flow.scope).mem_iff
  obtain rfl := Option.some.inj (hsound.encloses_unique hencloses hagain)
  exact ⟨around, haround, haround'⟩

/-- The common ancestor of two scopes is what climbing from them ends with, and it is the nearest
scope around both. As a partial operation it is commutative, idempotent and associative, and its
folds over the reachable branches of a join agree in any order. -/
theorem Built.commonAncestor_nearest (hbuilt : forest.Built) :
    (∀ a b : ScopeId, a.raw < forest.scopes.size → b.raw < forest.scopes.size →
      ∃ as bs answer, forest.ancestors a = .ok as ∧ forest.ancestors b = .ok bs ∧
        forest.commonAncestor a b = .ok answer ∧ forest.ClimbsTo a b answer ∧
        forest.NearestCommon as bs answer ∧ forest.commonAncestor b a = .ok answer ∧
        forest.commonAncestor a a = .ok (some a) ∧
        ∀ c : ScopeId, c.raw < forest.scopes.size →
          (forest.commonAncestor a b >>= (forest.commonAncestor? · (some c))) =
            (forest.commonAncestor b c >>= (forest.commonAncestor? (some a) ·))) ∧
    ∀ {flows flows' rest rest' : List Flow} {first first' : Flow},
      (∀ flow ∈ flows, flow.scope.raw < forest.scopes.size) → flows.Perm flows' →
      Flow.live forest flows = .ok (first :: rest) →
      Flow.live forest flows' = .ok (first' :: rest') →
        ∃ around, Flow.scopeAround forest first.scope rest = .ok around ∧
          Flow.scopeAround forest first'.scope rest' = .ok around := by
  have hsound := hbuilt.sound
  refine ⟨fun a b ha hb => ?_, hsound.scopeAround_perm⟩
  obtain ⟨answer, hanswer, hencloses⟩ := hsound.exists_commonAncestor ha hb
  refine ⟨forest.path a, forest.path b, answer, ancestors_eq_path ha, ancestors_eq_path hb,
    hanswer, hsound.climbsTo_of_encloses ha hb hencloses, hsound.nearestCommon ha hencloses, ?_,
    hsound.commonAncestor_self ha, fun c hc => hsound.commonAncestor_assoc ha hb hc⟩
  rw [hsound.commonAncestor_comm hb ha, hanswer]

/-- A function with two blocks in it, a block inside the second one, and a bottom. -/
def siblings : Forest :=
  (ofRoot .initial ⟨0⟩).after
    [.addScope ⟨0⟩ ⟨1⟩ (.function false) [] none, .addScope ⟨1⟩ ⟨2⟩ .block [] none,
      .addScope ⟨1⟩ ⟨3⟩ .block [] none, .addScope ⟨3⟩ ⟨4⟩ .block [] none, .addBottom ⟨5⟩]

theorem commonAncestor_nearest_of_siblings :
    siblings.commonAncestor ⟨2⟩ ⟨4⟩ = .ok (some ⟨1⟩) ∧
      siblings.ClimbsTo ⟨2⟩ ⟨4⟩ (some ⟨1⟩) ∧ siblings.commonAncestor ⟨4⟩ ⟨5⟩ = .ok none ∧
      Flow.live siblings [.entry 0 ⟨2⟩, .entry 1 ⟨5⟩, .entry 2 ⟨4⟩] =
        .ok [.entry 0 ⟨2⟩, .entry 2 ⟨4⟩] ∧
      ∃ around, Flow.scopeAround siblings ⟨2⟩ [.entry 2 ⟨4⟩] = .ok around ∧
        Flow.scopeAround siblings ⟨4⟩ [.entry 0 ⟨2⟩] = .ok around := by
  have hbuilt : siblings.Built := ⟨⟨0⟩, _, rfl⟩
  have hblock : siblings.ancestors ⟨2⟩ = .ok [⟨2⟩, ⟨1⟩, ⟨0⟩] := by decide +kernel
  have hnested : siblings.ancestors ⟨4⟩ = .ok [⟨4⟩, ⟨3⟩, ⟨1⟩, ⟨0⟩] := by decide +kernel
  have hbottom : siblings.ancestors ⟨5⟩ = .ok [⟨5⟩] := by decide +kernel
  have hlive : Flow.live siblings [.entry 0 ⟨2⟩, .entry 1 ⟨5⟩, .entry 2 ⟨4⟩] =
      .ok [.entry 0 ⟨2⟩, .entry 2 ⟨4⟩] := by decide +kernel
  have hlive' : Flow.live siblings [.entry 2 ⟨4⟩, .entry 1 ⟨5⟩, .entry 0 ⟨2⟩] =
      .ok [.entry 2 ⟨4⟩, .entry 0 ⟨2⟩] := by decide +kernel
  obtain ⟨hnearest, hfold⟩ := hbuilt.commonAncestor_nearest
  obtain ⟨as, bs, answer, has, hbs, hanswer, hclimbs, hmeet, _⟩ :=
    hnearest ⟨2⟩ ⟨4⟩ (by decide +kernel) (by decide +kernel)
  obtain ⟨as', bs', answer', has', hbs', hanswer', _, hapart, _⟩ :=
    hnearest ⟨4⟩ ⟨5⟩ (by decide +kernel) (by decide +kernel)
  rw [hblock, Except.ok.injEq] at has
  rw [hnested, Except.ok.injEq] at hbs has'
  rw [hbottom, Except.ok.injEq] at hbs'
  subst has hbs has' hbs'
  have haround : answer = some ⟨1⟩ :=
    (hmeet.found ⟨1⟩).mpr ⟨by decide, by decide, [⟨1⟩, ⟨0⟩], by decide +kernel, by decide⟩
  have hnone : answer' = none := hapart.absent.mpr (by decide)
  rw [haround] at hanswer hclimbs
  rw [hnone] at hanswer'
  exact ⟨hanswer, hclimbs, hanswer', hlive,
    hfold (by decide +kernel) (List.reverse_perm _).symm hlive hlive'⟩

end FlowTyping.Forest
