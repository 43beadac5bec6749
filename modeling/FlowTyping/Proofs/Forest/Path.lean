import FlowTyping.Forest.Ancestry
import FlowTyping.Proofs.Forest.Sound

/-!
# Paths

Along a path the handles decrease, every member starts the rest of the path, and reachable scopes
all lead to the global scope. So two reachable scopes have a nearest scope around both, and it is
the one that is found by following the paths in step.
-/
namespace FlowTyping.Forest

/-- The scope and the scopes around it, innermost first; none for an unknown scope. -/
def path (forest : Forest) (id : ScopeId) : List ScopeId :=
  match forest.scopes[id.raw]? with
  | some scope => id :: scope.outer
  | none => []

/-- A scope that is in the forest and no bottom. -/
def Live (forest : Forest) (id : ScopeId) : Prop :=
  ∃ scope, forest.scopes[id.raw]? = some scope ∧ scope.kind ≠ .bottom

/-- A scope whose path is what the paths of some scopes have in common. -/
def NearestAround (forest : Forest) (ids : List ScopeId) (around : ScopeId) : Prop :=
  ∀ id, id ∈ forest.path around ↔ ∀ inner ∈ ids, id ∈ forest.path inner

def Encloses (forest : Forest) (ids : List ScopeId) : Option ScopeId → Prop
  | some around => around.raw < forest.scopes.size ∧ forest.NearestAround ids around
  | none => ∀ id, ¬∀ inner ∈ ids, id ∈ forest.path inner

variable {forest : Forest} {a b c : ScopeId}

theorem path_eq_cons {scope : Scope} (hscope : forest.scopes[a.raw]? = some scope) :
    forest.path a = a :: scope.outer := by
  rw [path, hscope]

theorem exists_scope_of_path {outer : List ScopeId} (hpath : forest.path a = a :: outer) :
    ∃ scope, forest.scopes[a.raw]? = some scope ∧ scope.outer = outer := by
  rw [path] at hpath
  split at hpath
  next scope hscope => exact ⟨scope, hscope, (List.cons.inj hpath).2⟩
  next => cases hpath

/-- Roots are known by their kind. -/
theorem Sound.outer_eq_nil_iff (hsound : forest.Sound) {scope : Scope}
    (hscope : forest.scopes[a.raw]? = some scope) :
    scope.outer = [] ↔ scope.kind = .global ∨ scope.kind = .bottom := by
  rw [← Scope.Kind.isRoot_iff]
  constructor
  · intro houter
    rw [Scope.Kind.isRoot_iff]
    rcases hsound.root hscope houter with hbottom | rfl
    · exact .inr hbottom
    · obtain ⟨global, hglobal, hkind⟩ := hsound.global
      obtain rfl := Option.some.inj (hscope.symm.trans hglobal)
      exact .inl hkind
  · intro hroot
    cases houter : scope.outer with
    | nil => rfl
    | cons parent path =>
      rw [(hsound.inner hscope houter).1] at hroot
      cases hroot

theorem mem_path_self (ha : a.raw < forest.scopes.size) : a ∈ forest.path a := by
  rw [path_eq_cons (Array.getElem?_eq_getElem ha)]
  exact List.mem_cons_self

theorem Live.lt_size (ha : forest.Live a) : a.raw < forest.scopes.size := by
  obtain ⟨scope, hscope, _⟩ := ha
  exact (Array.getElem?_eq_some_iff.mp hscope).1

theorem ancestors_of_scope {scope : Scope} (hscope : forest.scopes[a.raw]? = some scope) :
    forest.ancestors a = .ok (a :: scope.outer) :=
  ancestors_eq_ok_iff.mpr ⟨scope, scope_eq_ok_iff.mpr hscope, rfl⟩

theorem ancestors_eq_path (ha : a.raw < forest.scopes.size) :
    forest.ancestors a = .ok (forest.path a) := by
  rw [path_eq_cons (Array.getElem?_eq_getElem ha)]
  exact ancestors_of_scope (Array.getElem?_eq_getElem ha)

/-- A path is that of a root, or the path of a reachable older scope with one scope before it. -/
theorem Sound.path_cases (hsound : forest.Sound) (ha : a.raw < forest.scopes.size) :
    (forest.path a = [a] ∧ (a = Forest.global ∨ ¬forest.Live a)) ∨
      ∃ parent, parent.raw < a.raw ∧ forest.Live parent ∧
        forest.path a = a :: forest.path parent := by
  have hscope := Array.getElem?_eq_getElem ha
  rw [path_eq_cons hscope]
  cases houter : forest.scopes[a.raw].outer with
  | nil =>
    refine .inl ⟨rfl, ?_⟩
    rcases hsound.root hscope houter with hbottom | hglobal
    · refine .inr fun ⟨scope, hscope', hlive⟩ => hlive ?_
      rw [hscope] at hscope'
      exact Option.some.inj hscope' ▸ hbottom
    · exact .inl hglobal
  | cons parent rest =>
    obtain ⟨_, hlt, around, haround, hlive, hrest⟩ := hsound.inner hscope houter
    refine .inr ⟨parent, hlt, ⟨around, haround, hlive⟩, ?_⟩
    rw [path_eq_cons haround, hrest]

theorem Sound.path_induction (hsound : forest.Sound) {motive : ScopeId → Prop}
    (hroot : ∀ id, forest.path id = [id] → (id = Forest.global ∨ ¬forest.Live id) → motive id)
    (hinner : ∀ id parent, parent.raw < id.raw → forest.Live parent →
      forest.path id = id :: forest.path parent → motive parent → motive id)
    (ha : a.raw < forest.scopes.size) : motive a := by
  -- The scope around another one is always older, so its number is smaller.
  induction hn : a.raw using Nat.strongRecOn generalizing a with
  | ind n ih =>
    subst hn
    rcases hsound.path_cases ha with ⟨hpath, hkind⟩ | ⟨parent, hlt, hlive, hpath⟩
    · exact hroot a hpath hkind
    · exact hinner a parent hlt hlive hpath (ih parent.raw hlt hlive.lt_size rfl)

theorem lt_size_of_mem_path (hb : b ∈ forest.path a) : a.raw < forest.scopes.size := by
  rw [path] at hb
  split at hb
  next scope hscope => exact (Array.getElem?_eq_some_iff.mp hscope).1
  next => cases hb

theorem Sound.mem_path_facts (hsound : forest.Sound) (hb : b ∈ forest.path a) :
    b.raw < forest.scopes.size ∧ b.raw ≤ a.raw ∧ forest.path b <:+ forest.path a := by
  have ha := lt_size_of_mem_path hb
  revert hb
  apply hsound.path_induction (motive := fun a => b ∈ forest.path a →
    b.raw < forest.scopes.size ∧ b.raw ≤ a.raw ∧ forest.path b <:+ forest.path a) ?_ ?_ ha
  · intro root hpath _ hb
    have hlt := lt_size_of_mem_path hb
    rw [hpath, List.mem_singleton] at hb
    subst hb
    exact ⟨hlt, Nat.le_refl _, List.suffix_refl _⟩
  · intro inner parent hlt _ hpath ih hb
    have hinner := lt_size_of_mem_path hb
    rw [hpath] at hb ⊢
    rcases List.mem_cons.mp hb with rfl | hb
    · rw [hpath]
      exact ⟨hinner, Nat.le_refl _, List.suffix_refl _⟩
    · obtain ⟨hsize, hle, hsuffix⟩ := ih hb
      exact ⟨hsize, by omega, hsuffix.trans (List.suffix_cons _ _)⟩

/-- The search for the nearest scope with a property goes along the path and never fails. -/
theorem Sound.nearest_eq (hsound : forest.Sound) (ha : a.raw < forest.scopes.size)
    (has : Scope → Bool) :
    forest.nearest has a =
      .ok ((forest.path a).find? fun id => (forest.scopes[id.raw]?).any has) := by
  have hknown : ∀ id ∈ forest.path a, id.raw < forest.scopes.size :=
    fun id hid => (hsound.mem_path_facts hid).1
  rw [nearest, ancestors_eq_path ha, Except.ok_bind]
  generalize forest.path a = path at hknown
  induction path with
  | nil => rfl
  | cons id path ih =>
    obtain ⟨hid, hpath⟩ := List.forall_mem_cons.mp hknown
    have hscope := Array.getElem?_eq_getElem hid
    rw [nearestOn, scope_eq_ok_iff.mpr hscope, Except.ok_bind, List.find?_cons, hscope,
      Option.any_some]
    cases has forest.scopes[id.raw] with
    | true => rfl
    | false => exact ih hpath

theorem Sound.mem_path_trans (hsound : forest.Sound) (hb : b ∈ forest.path a)
    (hc : c ∈ forest.path b) : c ∈ forest.path a :=
  (hsound.mem_path_facts hb).2.2.subset hc

theorem Sound.mem_path_antisymm (hsound : forest.Sound) (hab : a ∈ forest.path b)
    (hba : b ∈ forest.path a) : a = b := by
  have hle := (hsound.mem_path_facts hab).2.1
  have hge := (hsound.mem_path_facts hba).2.1
  exact Handle.ext (by omega)

theorem Sound.path_decreasing (hsound : forest.Sound) (a : ScopeId) :
    (forest.path a).Pairwise fun inner outer => outer.raw < inner.raw := by
  by_cases ha : a.raw < forest.scopes.size
  · apply hsound.path_induction (motive := fun a =>
      (forest.path a).Pairwise fun inner outer => outer.raw < inner.raw) ?_ ?_ ha
    · intro root hpath _
      rw [hpath]
      exact List.pairwise_singleton _ _
    · intro inner parent hlt _ hpath ih
      rw [hpath]
      refine List.pairwise_cons.mpr ⟨fun outer houter => ?_, ih⟩
      have hle := (hsound.mem_path_facts houter).2.1
      omega
  · rw [path, Array.getElem?_eq_none (Nat.le_of_not_lt ha)]
    exact List.Pairwise.nil

theorem Sound.nodup_path (hsound : forest.Sound) (a : ScopeId) : (forest.path a).Nodup :=
  (hsound.path_decreasing a).imp fun hlt hsame =>
    Nat.ne_of_gt hlt (congrArg Handle.raw hsame)

/-- Of two members of a path the older one is on the path of the other. -/
theorem Sound.mem_path_of_le (hsound : forest.Sound) (hb : b ∈ forest.path a)
    (hc : c ∈ forest.path a) (hle : c.raw ≤ b.raw) : c ∈ forest.path b := by
  obtain ⟨hsize, _, before, hsplit⟩ := hsound.mem_path_facts hb
  rw [← hsplit] at hc
  rcases List.mem_append.mp hc with hc | hc
  · have hdecr := hsound.path_decreasing a
    rw [← hsplit] at hdecr
    have hlt := (List.pairwise_append.mp hdecr).2.2 c hc b (mem_path_self hsize)
    omega
  · exact hc

theorem Sound.live_of_mem_path (hsound : forest.Sound) (ha : forest.Live a)
    (hb : b ∈ forest.path a) : forest.Live b := by
  revert ha hb
  by_cases ha : a.raw < forest.scopes.size
  · apply hsound.path_induction (motive := fun a =>
      forest.Live a → b ∈ forest.path a → forest.Live b) ?_ ?_ ha
    · intro root hpath _ hroot hb
      rw [hpath, List.mem_singleton] at hb
      exact hb ▸ hroot
    · intro inner parent _ hparent hpath ih hinner hb
      rw [hpath] at hb
      rcases List.mem_cons.mp hb with rfl | hb
      · exact hinner
      · exact ih hparent hb
  · intro hlive
    exact absurd hlive.lt_size ha

theorem Sound.global_mem_path (hsound : forest.Sound) (ha : forest.Live a) :
    Forest.global ∈ forest.path a := by
  have hlt := ha.lt_size
  revert ha
  apply hsound.path_induction (motive := fun a =>
    forest.Live a → Forest.global ∈ forest.path a) ?_ ?_ hlt
  · intro root hpath hkind hroot
    rw [hpath, List.mem_singleton]
    exact (hkind.resolve_right fun hdead => hdead hroot).symm
  · intro inner parent _ hparent hpath ih _
    rw [hpath]
    exact List.mem_cons_of_mem inner (ih hparent)

/-- A path ends in the global scope, or it is that of a bottom. -/
theorem Sound.getLast?_path (hsound : forest.Sound) (ha : a.raw < forest.scopes.size) :
    (forest.path a).getLast? = some Forest.global ∨ (forest.path a = [a] ∧ ¬forest.Live a) := by
  apply hsound.path_induction (motive := fun a =>
    (forest.path a).getLast? = some Forest.global ∨ (forest.path a = [a] ∧ ¬forest.Live a)) ?_ ?_ ha
  · intro root hpath hkind
    rcases hkind with rfl | hdead
    · exact .inl (by rw [hpath, List.getLast?_singleton])
    · exact .inr ⟨hpath, hdead⟩
  · intro inner parent _ hlive hpath ih
    have hlast := ih.resolve_right fun hdead => hdead.2 hlive
    exact .inl (by rw [hpath, List.getLast?_cons, hlast, Option.getD_some])

theorem Sound.getLast?_path_of_global_mem (hsound : forest.Sound)
    (hglobal : Forest.global ∈ forest.path a) :
    (forest.path a).getLast? = some Forest.global := by
  apply (hsound.getLast?_path (lt_size_of_mem_path hglobal)).resolve_right
  rintro ⟨hpath, hdead⟩
  rw [hpath, List.mem_singleton] at hglobal
  obtain ⟨scope, hscope, hkind⟩ := hsound.global
  exact hdead ⟨scope, hglobal ▸ hscope, by simp [hkind]⟩

private theorem exists_meeting (as bs : List ScopeId) (rest rest' : List ScopeId)
    (hlen : as.length = bs.length) :
    ∃ found, meeting (as ++ a :: rest) (bs ++ a :: rest') = some found ∧
      (found = a ∨ found ∈ as) := by
  induction as generalizing bs with
  | nil =>
    have hbs : bs = [] := List.length_eq_zero_iff.mp hlen.symm
    subst hbs
    exact ⟨a, by simp [meeting], .inl rfl⟩
  | cons x as ih =>
    cases bs with
    | nil => simp at hlen
    | cons y bs =>
      by_cases hxy : x = y
      · subst hxy
        exact ⟨x, by simp [meeting], .inr List.mem_cons_self⟩
      · obtain ⟨found, hfound, hplace⟩ := ih bs (by simpa using hlen)
        refine ⟨found, ?_, hplace.imp_right (List.mem_cons_of_mem x)⟩
        simpa [meeting, hxy] using hfound

private theorem Sound.meeting_of_mem (hsound : forest.Sound) (hca : c ∈ forest.path a)
    (hcb : c ∈ forest.path b) :
    let as := forest.path a
    let bs := forest.path b
    ∃ found, meeting (as.drop (as.length - bs.length)) (bs.drop (bs.length - as.length)) =
      some found ∧ c.raw ≤ found.raw := by
  intro as bs
  obtain ⟨hsize, _, before, hbefore⟩ := hsound.mem_path_facts hca
  obtain ⟨_, _, before', hbefore'⟩ := hsound.mem_path_facts hcb
  have hpath := path_eq_cons (Array.getElem?_eq_getElem hsize)
  rw [hpath] at hbefore hbefore'
  have hdecr := hsound.path_decreasing a
  have hlen : as.length - bs.length = before.length - before'.length := by
    simp only [as, bs, ← hbefore, ← hbefore', List.length_append]
    omega
  have hlen' : bs.length - as.length = before'.length - before.length := by
    simp only [as, bs, ← hbefore, ← hbefore', List.length_append]
    omega
  have has : as = before ++ c :: forest.scopes[c.raw].outer := hbefore.symm
  have hbs : bs = before' ++ c :: forest.scopes[c.raw].outer := hbefore'.symm
  -- Both paths end in the path of `c`, so they are cut where what is before it differs in length.
  rw [hlen, hlen', has, hbs, List.drop_append_of_le_length (Nat.sub_le _ _),
    List.drop_append_of_le_length (Nat.sub_le _ _)]
  obtain ⟨found, hfound, hplace⟩ := exists_meeting
    (before.drop (before.length - before'.length)) (before'.drop (before'.length - before.length))
    forest.scopes[c.raw].outer forest.scopes[c.raw].outer (by simp only [List.length_drop]; omega)
  refine ⟨found, hfound, ?_⟩
  rcases hplace with rfl | hmem
  · exact Nat.le_refl _
  · rw [← hbefore] at hdecr
    have hlt := (List.pairwise_append.mp hdecr).2.2 found (List.mem_of_mem_drop hmem) c
      List.mem_cons_self
    exact Nat.le_of_lt hlt

/-- The search for a common ancestor has an answer, which is the nearest scope around both. -/
theorem Sound.exists_commonAncestor (hsound : forest.Sound) (ha : a.raw < forest.scopes.size)
    (hb : b.raw < forest.scopes.size) :
    ∃ answer, forest.commonAncestor a b = .ok answer ∧ forest.Encloses [a, b] answer := by
  rw [commonAncestor, ancestors_eq_path ha, ancestors_eq_path hb]
  refine ⟨_, rfl, ?_⟩
  cases hmeet : meeting
      ((forest.path a).drop ((forest.path a).length - (forest.path b).length))
      ((forest.path b).drop ((forest.path b).length - (forest.path a).length)) with
  | none =>
    intro id hid
    obtain ⟨found, hfound, _⟩ := hsound.meeting_of_mem (hid a (by simp)) (hid b (by simp))
    rw [hmeet] at hfound
    cases hfound
  | some around =>
    have hmem := mem_of_meeting hmeet
    have hinA := List.mem_of_mem_drop hmem.1
    have hinB := List.mem_of_mem_drop hmem.2
    refine ⟨(hsound.mem_path_facts hinA).1, fun id => ⟨fun hid => ?_, fun hid => ?_⟩⟩
    · intro inner hinner
      simp only [List.mem_cons, List.not_mem_nil, or_false] at hinner
      rcases hinner with rfl | rfl
      · exact hsound.mem_path_trans hinA hid
      · exact hsound.mem_path_trans hinB hid
    · have hidA := hid a (by simp)
      have hidB := hid b (by simp)
      obtain ⟨found, hfound, hle⟩ := hsound.meeting_of_mem hidA hidB
      rw [Option.some.inj (hmeet.symm.trans hfound)] at hinA ⊢
      exact hsound.mem_path_of_le hinA hidA hle

/-- Reachable scopes have a nearest scope around them, and it is reachable. -/
theorem Sound.commonAncestor_spec (hsound : forest.Sound) (ha : forest.Live a)
    (hb : forest.Live b) :
    ∃ around, forest.commonAncestor a b = .ok (some around) ∧ forest.Live around ∧
      forest.NearestAround [a, b] around := by
  obtain ⟨answer, hanswer, hencloses⟩ := hsound.exists_commonAncestor ha.lt_size hb.lt_size
  cases answer with
  | none =>
    refine absurd ?_ (hencloses Forest.global)
    simp [hsound.global_mem_path ha, hsound.global_mem_path hb]
  | some around =>
    obtain ⟨hlt, hnear⟩ := hencloses
    have hmem := (hnear around).mp (mem_path_self hlt) a List.mem_cons_self
    exact ⟨around, hanswer, hsound.live_of_mem_path ha hmem, hnear⟩

theorem nearestAround_of_forall {ids : List ScopeId} (hids : ids ≠ []) (hall : ∀ id ∈ ids, id = a) :
    forest.NearestAround ids a := by
  intro id
  obtain ⟨inner, hinner⟩ := List.exists_mem_of_ne_nil ids hids
  constructor
  · intro hid other hother
    rw [hall other hother]
    exact hid
  · intro hall'
    rw [← hall inner hinner]
    exact hall' inner hinner

theorem nearestAround_singleton (a : ScopeId) : forest.NearestAround [a] a :=
  nearestAround_of_forall (List.cons_ne_nil a []) fun _ hid => List.mem_singleton.mp hid

theorem Sound.nearestAround_unique (hsound : forest.Sound) {ids : List ScopeId}
    (ha : a.raw < forest.scopes.size) (hb : b.raw < forest.scopes.size)
    (hnearA : forest.NearestAround ids a) (hnearB : forest.NearestAround ids b) : a = b := by
  have hab := (hnearB a).mpr ((hnearA a).mp (mem_path_self ha))
  have hba := (hnearA b).mpr ((hnearB b).mp (mem_path_self hb))
  exact hsound.mem_path_antisymm hab hba

theorem NearestAround.mem_path {ids : List ScopeId} (hnear : forest.NearestAround ids a)
    (ha : a.raw < forest.scopes.size) (hb : b ∈ ids) : a ∈ forest.path b :=
  (hnear a).mp (mem_path_self ha) b hb

/-- Only one outcome is right. -/
theorem Sound.encloses_unique (hsound : forest.Sound) {ids : List ScopeId}
    {answer other : Option ScopeId} (hanswer : forest.Encloses ids answer)
    (hother : forest.Encloses ids other) : answer = other := by
  cases answer with
  | none =>
    cases other with
    | none => rfl
    | some around =>
      exact absurd ((hother.2 around).mp (mem_path_self hother.1)) (hanswer around)
  | some around =>
    cases other with
    | none => exact absurd ((hanswer.2 around).mp (mem_path_self hanswer.1)) (hother around)
    | some around' =>
      exact congrArg some
        (hsound.nearestAround_unique hanswer.1 hother.1 hanswer.2 hother.2)

end FlowTyping.Forest
