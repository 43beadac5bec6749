import FlowTyping.Proofs.Forest.Path

/-!
# Climbing to a common ancestor

Of two scopes the deeper one goes to its parent, and of two different scopes at one depth both do. No
step leaves a common ancestor behind, and every step leaves a shorter way to the roots. So climbing
ends, and where it ends the scopes have met or hang from different roots.
-/
namespace FlowTyping

theorem Scope.exists_parent? {scope : Scope} (hdepth : 0 < scope.depth) :
    ∃ parent, scope.parent? = some parent := by
  obtain ⟨parent, rest, houter⟩ := List.exists_cons_of_length_pos hdepth
  exact ⟨parent, by rw [parent?, houter, List.head?_cons]⟩

namespace Forest

/-- A step from two scopes towards a common ancestor. -/
inductive Climbs (forest : Forest) : ScopeId × ScopeId → ScopeId × ScopeId → Prop where
  | first {a b parent : ScopeId} {scope other : Scope} (ha : forest.scope a = .ok scope)
    (hb : forest.scope b = .ok other) (hdeeper : other.depth < scope.depth)
    (hparent : scope.parent? = some parent) : Climbs forest (a, b) (parent, b)
  | second {a b parent : ScopeId} {scope other : Scope} (ha : forest.scope a = .ok scope)
    (hb : forest.scope b = .ok other) (hdeeper : scope.depth < other.depth)
    (hparent : other.parent? = some parent) : Climbs forest (a, b) (a, parent)
  | both {a b parent parent' : ScopeId} {scope other : Scope} (ha : forest.scope a = .ok scope)
    (hb : forest.scope b = .ok other) (hlevel : scope.depth = other.depth) (hne : a ≠ b)
    (hparent : scope.parent? = some parent) (hparent' : other.parent? = some parent') :
    Climbs forest (a, b) (parent, parent')

/-- The answer that climbing from two scopes has. Every way to climb ends, and each end, where no
step is left, gives the answer: the scope that was met, or none if the scopes differ. -/
structure ClimbsTo (forest : Forest) (a b : ScopeId) (answer : Option ScopeId) : Prop where
  ends : Acc (fun next pair => forest.Climbs pair next) (a, b)
  answer : ∀ {last}, Relation.ReflTransGen forest.Climbs (a, b) last →
    (∀ next, ¬forest.Climbs last next) → answer = if last.1 = last.2 then some last.1 else none

variable {forest : Forest} {a b parent : ScopeId} {scope other : Scope}
  {pair next : ScopeId × ScopeId}

theorem length_path (hscope : forest.scope a = .ok scope) :
    (forest.path a).length = scope.depth + 1 := by
  rw [path_eq_cons (scope_eq_ok_iff.mp hscope), List.length_cons, Scope.depth]

theorem path_of_depth_eq_zero (hscope : forest.scope a = .ok scope) (hdepth : scope.depth = 0) :
    forest.path a = [a] := by
  rw [path_eq_cons (scope_eq_ok_iff.mp hscope), List.length_eq_zero_iff.mp hdepth]

theorem Sound.path_of_parent? (hsound : forest.Sound) (hscope : forest.scope a = .ok scope)
    (hparent : scope.parent? = some parent) :
    parent.raw < forest.scopes.size ∧ forest.path a = a :: forest.path parent := by
  have hget := scope_eq_ok_iff.mp hscope
  obtain ⟨rest, houter⟩ := List.head?_eq_some_iff.mp hparent
  obtain ⟨_, _, around, haround, _, hrest⟩ := hsound.inner hget houter
  refine ⟨(Array.getElem?_eq_some_iff.mp haround).1, ?_⟩
  rw [path_eq_cons hget, path_eq_cons haround, houter, hrest]

theorem lt_size_of_scope (hscope : forest.scope a = .ok scope) : a.raw < forest.scopes.size :=
  (Array.getElem?_eq_some_iff.mp (scope_eq_ok_iff.mp hscope)).1

theorem ne_of_depth_lt (ha : forest.scope a = .ok scope) (hb : forest.scope b = .ok other)
    (hdeeper : other.depth < scope.depth) : a ≠ b := by
  rintro rfl
  rw [Except.ok.inj (ha.symm.trans hb)] at hdeeper
  exact Nat.lt_irrefl _ hdeeper

/-- A scope is around no other one that is no deeper. -/
theorem Sound.not_mem_path (hsound : forest.Sound) (ha : forest.scope a = .ok scope)
    (hb : forest.scope b = .ok other) (hne : a ≠ b) (hle : other.depth ≤ scope.depth) :
    a ∉ forest.path b := by
  intro hmem
  obtain ⟨_, _, hsuffix⟩ := hsound.mem_path_facts hmem
  have hlength : (forest.path b).length ≤ (forest.path a).length := by
    rw [length_path ha, length_path hb]
    omega
  have hsame := hsuffix.eq_of_length (Nat.le_antisymm hsuffix.length_le hlength)
  have hself := mem_path_self (lt_size_of_scope hb)
  rw [← hsame] at hself
  exact hne (hsound.mem_path_antisymm hmem hself)

/-! ## One step -/

def ahead (forest : Forest) (pair : ScopeId × ScopeId) : Nat :=
  (forest.path pair.1).length + (forest.path pair.2).length

theorem Sound.ahead_lt_of_climbs (hsound : forest.Sound) (hclimbs : forest.Climbs pair next) :
    forest.ahead next < forest.ahead pair := by
  cases hclimbs with
  | first ha hb hdeeper hparent =>
    simp [ahead, (hsound.path_of_parent? ha hparent).2]
  | second ha hb hdeeper hparent =>
    simp [ahead, (hsound.path_of_parent? hb hparent).2]
  | both ha hb hlevel hne hparent hparent' =>
    simp only [ahead, (hsound.path_of_parent? ha hparent).2,
      (hsound.path_of_parent? hb hparent').2, List.length_cons]
    omega

theorem Sound.climbs_wellFounded (hsound : forest.Sound) :
    WellFounded fun next pair => forest.Climbs pair next :=
  Subrelation.wf (fun hclimbs => hsound.ahead_lt_of_climbs hclimbs) (measure forest.ahead).wf

private theorem mem_common_iff (hpath : forest.path a = a :: forest.path parent)
    (hnew : a ∉ forest.path b) (id : ScopeId) :
    (id ∈ forest.path parent ∧ id ∈ forest.path b) ↔
      id ∈ forest.path a ∧ id ∈ forest.path b := by
  rw [hpath, List.mem_cons]
  constructor
  · exact fun hid => ⟨.inr hid.1, hid.2⟩
  · rintro ⟨rfl | hid, hidB⟩
    · exact absurd hidB hnew
    · exact ⟨hid, hidB⟩

/-- A step stays in the forest and keeps all common ancestors. -/
theorem Sound.common_of_climbs (hsound : forest.Sound) (hclimbs : forest.Climbs pair next) :
    next.1.raw < forest.scopes.size ∧ next.2.raw < forest.scopes.size ∧
      ∀ id, (id ∈ forest.path next.1 ∧ id ∈ forest.path next.2) ↔
        id ∈ forest.path pair.1 ∧ id ∈ forest.path pair.2 := by
  cases hclimbs with
  | first ha hb hdeeper hparent =>
    obtain ⟨hknown, hpath⟩ := hsound.path_of_parent? ha hparent
    have hne := ne_of_depth_lt ha hb hdeeper
    have hnew := hsound.not_mem_path ha hb hne (Nat.le_of_lt hdeeper)
    exact ⟨hknown, lt_size_of_scope hb, mem_common_iff hpath hnew⟩
  | second ha hb hdeeper hparent =>
    obtain ⟨hknown, hpath⟩ := hsound.path_of_parent? hb hparent
    have hne := ne_of_depth_lt hb ha hdeeper
    have hnew := hsound.not_mem_path hb ha hne (Nat.le_of_lt hdeeper)
    refine ⟨lt_size_of_scope ha, hknown, fun id => ?_⟩
    rw [and_comm, mem_common_iff hpath hnew id, and_comm]
  | @both a b parent parent' scope other ha hb hlevel hne hparent hparent' =>
    obtain ⟨hknown, hpath⟩ := hsound.path_of_parent? ha hparent
    obtain ⟨hknown', hpath'⟩ := hsound.path_of_parent? hb hparent'
    have hnew := hsound.not_mem_path ha hb hne (Nat.le_of_eq hlevel.symm)
    have hnew' : b ∉ forest.path parent := by
      intro hmem
      refine hsound.not_mem_path hb ha hne.symm (Nat.le_of_eq hlevel) ?_
      rw [hpath]
      exact List.mem_cons_of_mem a hmem
    refine ⟨hknown, hknown', fun id => ?_⟩
    rw [← mem_common_iff hpath hnew id, and_comm, mem_common_iff hpath' hnew' id, and_comm]

/-- Scopes from which no step is left are one scope, or two roots. -/
theorem eq_or_apart (ha : a.raw < forest.scopes.size) (hb : b.raw < forest.scopes.size)
    (hstuck : ∀ next, ¬forest.Climbs (a, b) next) :
    a = b ∨ ∀ id ∈ forest.path a, id ∉ forest.path b := by
  rw [or_iff_not_imp_left]
  intro hne
  have hscopeA := scope_eq_ok_iff.mpr (Array.getElem?_eq_getElem ha)
  have hscopeB := scope_eq_ok_iff.mpr (Array.getElem?_eq_getElem hb)
  generalize forest.scopes[a.raw] = scope at hscopeA
  generalize forest.scopes[b.raw] = other at hscopeB
  rcases Nat.lt_trichotomy other.depth scope.depth with hdeeper | hlevel | hdeeper
  · obtain ⟨parent, hparent⟩ := Scope.exists_parent? (Nat.zero_lt_of_lt hdeeper)
    exact absurd (.first hscopeA hscopeB hdeeper hparent) (hstuck _)
  · rcases Nat.eq_zero_or_pos scope.depth with hroot | hdepth
    · have hroot' : other.depth = 0 := by omega
      intro id hidA hidB
      rw [path_of_depth_eq_zero hscopeA hroot, List.mem_singleton] at hidA
      rw [path_of_depth_eq_zero hscopeB hroot', List.mem_singleton] at hidB
      exact hne (hidA.symm.trans hidB)
    · obtain ⟨parent, hparent⟩ := Scope.exists_parent? hdepth
      obtain ⟨parent', hparent'⟩ := Scope.exists_parent? (hlevel ▸ hdepth)
      exact absurd (.both hscopeA hscopeB hlevel.symm hne hparent hparent') (hstuck _)
  · obtain ⟨parent, hparent⟩ := Scope.exists_parent? (Nat.zero_lt_of_lt hdeeper)
    exact absurd (.second hscopeA hscopeB hdeeper hparent) (hstuck _)

/-! ## All the way -/

/-- Climbing keeps all common ancestors of the scopes it starts from. -/
theorem Sound.common_of_reaches (hsound : forest.Sound) (ha : a.raw < forest.scopes.size)
    (hb : b.raw < forest.scopes.size) {last : ScopeId × ScopeId}
    (hreaches : Relation.ReflTransGen forest.Climbs (a, b) last) :
    last.1.raw < forest.scopes.size ∧ last.2.raw < forest.scopes.size ∧
      ∀ id, (id ∈ forest.path last.1 ∧ id ∈ forest.path last.2) ↔
        id ∈ forest.path a ∧ id ∈ forest.path b := by
  induction hreaches with
  | refl => exact ⟨ha, hb, fun _ => Iff.rfl⟩
  | tail _ hclimbs ih =>
    obtain ⟨hknown, hknown', hcommon⟩ := hsound.common_of_climbs hclimbs
    exact ⟨hknown, hknown', fun id => (hcommon id).trans (ih.2.2 id)⟩

/-- What climbing ends with is the nearest scope around those it started from. -/
theorem Sound.encloses_of_reaches (hsound : forest.Sound) (ha : a.raw < forest.scopes.size)
    (hb : b.raw < forest.scopes.size) {last : ScopeId × ScopeId}
    (hreaches : Relation.ReflTransGen forest.Climbs (a, b) last)
    (hstuck : ∀ next, ¬forest.Climbs last next) :
    forest.Encloses [a, b] (if last.1 = last.2 then some last.1 else none) := by
  obtain ⟨hknown, hknown', hcommon⟩ := hsound.common_of_reaches ha hb hreaches
  have hall : ∀ id, (∀ inner ∈ [a, b], id ∈ forest.path inner) ↔
      id ∈ forest.path last.1 ∧ id ∈ forest.path last.2 := by
    intro id
    rw [hcommon]
    simp
  split
  next hsame =>
    refine ⟨hknown, fun id => ?_⟩
    rw [hall, ← hsame, and_self]
  next hne =>
    have hapart := (eq_or_apart hknown hknown' hstuck).resolve_left hne
    intro id hid
    obtain ⟨hfirst, hsecond⟩ := (hall id).mp hid
    exact hapart id hfirst hsecond

/-- The nearest scope around two others is the answer of all climbing from them. -/
theorem Sound.climbsTo_of_encloses (hsound : forest.Sound) (ha : a.raw < forest.scopes.size)
    (hb : b.raw < forest.scopes.size) {answer : Option ScopeId}
    (hanswer : forest.Encloses [a, b] answer) : forest.ClimbsTo a b answer where
  ends := hsound.climbs_wellFounded.apply (a, b)
  answer hreaches hstuck :=
    hsound.encloses_unique hanswer (hsound.encloses_of_reaches ha hb hreaches hstuck)

end Forest
end FlowTyping
