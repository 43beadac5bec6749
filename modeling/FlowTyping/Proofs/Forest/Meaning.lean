import FlowTyping.Forest.Resolution
import FlowTyping.Proofs.Forest.Path

/-!
# What names mean

A simple name means its innermost declaration, and a qualified name is looked for where its root is.
So a name that the forest can spell has an answer in every scope of the forest, and the answer is a
variable of its own scope. Names that mean variables of one scope mean the same variable, and a
simple name that means the same at both ends of a path means it all along the path.
-/
namespace FlowTyping

theorem rootIdentifier?_eq_none_iff {text : String} :
    rootIdentifier? text = none ↔ isQualified text = false := by
  unfold rootIdentifier?
  split <;> simp_all

/-- What is found first is found where something is. -/
theorem findSome?_eq_bind_find? {α β : Type} (look : α → Option β) (values : List α) :
    values.findSome? look = (values.find? fun value => (look value).isSome).bind look := by
  induction values with
  | nil => rfl
  | cons value values ih =>
    cases hlook : look value with
    | none => simp [hlook, ih]
    | some found => simp [hlook]

namespace Forest

def Interned (forest : Forest) (name : Name) : Prop :=
  ∃ text, forest.names.spelling? name = some text

instance (forest : Forest) (name : Name) : Decidable (forest.Interned name) :=
  decidable_of_iff ((forest.names.spelling? name).isSome = true) Option.isSome_iff_exists

def Simple (forest : Forest) (name : Name) : Prop :=
  ∃ text, forest.names.spelling? name = some text ∧ isQualified text = false

def own? (forest : Forest) (id : ScopeId) (name : Name) : Option Variable := do
  let scope ← forest.scopes[id.raw]?
  let var ← scope.index[name]?
  forest.vars[var.raw]?

/-- The variable that a name means; none also where that cannot be told. -/
def meaning? (forest : Forest) (id : ScopeId) (name : Name) : Option Variable :=
  match forest.resolve id name with
  | .ok found => found
  | .error _ => none

def Tells (forest : Forest) (id : ScopeId) (name : Name) : Prop :=
  ∃ found, forest.resolve id name = .ok found

def ownSpelled? (forest : Forest) (id : ScopeId) (text : String) : Option Variable :=
  (forest.names.find? text).bind (forest.own? id)

/-- The scope where names with a root are looked for. -/
def home? (forest : Forest) (a : ScopeId) (root : String) : Option ScopeId :=
  ((forest.path a).find? fun id => (forest.ownSpelled? id root).isSome).or (forest.path a).getLast?

variable {forest : Forest} {a b c : ScopeId} {name : Name} {text : String}

theorem Tells.resolve_eq (htells : forest.Tells a name) :
    forest.resolve a name = .ok (forest.meaning? a name) := by
  obtain ⟨found, hfound⟩ := htells
  rw [meaning?, hfound]

theorem resolve_of_meaning? {found : Variable} (hfound : forest.meaning? a name = some found) :
    forest.resolve a name = .ok (some found) := by
  unfold meaning? at hfound
  split at hfound
  next answer hanswer => rw [hanswer, hfound]
  next => cases hfound

theorem Tells.declaredType_eq (htells : forest.Tells a name) :
    forest.declaredType a name = .ok ((forest.meaning? a name).bind (·.type)) := by
  rw [declaredType, htells.resolve_eq]
  rfl

theorem tells_of_declaredType {type : Option TypeId}
    (htype : forest.declaredType a name = .ok type) : forest.Tells a name := by
  obtain ⟨found, hfound, _⟩ := Except.bind_eq_ok_iff.mp htype
  exact ⟨found, hfound⟩

theorem Simple.interned (hsimple : forest.Simple name) : forest.Interned name := by
  obtain ⟨text, htext, _⟩ := hsimple
  exact ⟨text, htext⟩

theorem requireSimple_eq_ok_iff {names : List Name} :
    forest.requireSimple names = .ok () ↔ ∀ name ∈ names, forest.Simple name := by
  induction names with
  | nil => simp [requireSimple]
  | cons name names ih =>
    rw [requireSimple, List.forall_mem_cons, ← ih, Simple, spelling]
    cases forest.names.spelling? name with
    | none => simp
    | some text => cases hdot : isQualified text <;> simp [hdot]

theorem own?_eq_of_ownVariable? {found : Option Variable}
    (hfound : forest.ownVariable? a name = .ok found) : forest.own? a name = found := by
  unfold ownVariable? at hfound
  obtain ⟨scope, hscope, hfound⟩ := Except.bind_eq_ok_iff.mp hfound
  rw [own?, scope_eq_ok_iff.mp hscope]
  cases hvar : scope.index[name]? with
  | none =>
    rw [hvar] at hfound
    cases hfound
    simp [hvar]
  | some id =>
    rw [hvar] at hfound
    obtain ⟨var, hget, hfound⟩ := Except.bind_eq_ok_iff.mp hfound
    cases hfound
    unfold Forest.var at hget
    split at hget
    next found hfound =>
      cases hget
      simp [hvar, hfound]
    next => cases hget

theorem mem_vars_of_own? {found : Variable} (hfound : forest.own? a name = some found) :
    found ∈ forest.vars := by
  obtain ⟨_, _, hfound⟩ := Option.bind_eq_some_iff.mp hfound
  obtain ⟨_, _, hget⟩ := Option.bind_eq_some_iff.mp hfound
  exact Array.mem_of_getElem? hget

theorem Sound.own?_facts (hsound : forest.Sound) {found : Variable}
    (hfound : forest.own? a name = some found) :
    found.scope = a ∧ found.name = name ∧ a.raw < forest.scopes.size := by
  obtain ⟨scope, hscope, hfound⟩ := Option.bind_eq_some_iff.mp hfound
  obtain ⟨var, hvar, hfound⟩ := Option.bind_eq_some_iff.mp hfound
  obtain ⟨found', hfound', hscope', hname⟩ := hsound.declared hscope hvar
  rw [hfound] at hfound'
  cases hfound'
  exact ⟨hscope', hname, (Array.getElem?_eq_some_iff.mp hscope).1⟩

theorem Sound.ownVariable?_eq (hsound : forest.Sound) (ha : a.raw < forest.scopes.size)
    (name : Name) : forest.ownVariable? a name = .ok (forest.own? a name) := by
  have hscope := Array.getElem?_eq_getElem ha
  have hget := scope_eq_ok_iff.mpr hscope
  cases hvar : forest.scopes[a.raw].index[name]? with
  | none => simp [ownVariable?, own?, hget, hscope, hvar]
  | some id =>
    obtain ⟨found, hfound, _⟩ := hsound.declared hscope hvar
    have hknown : forest.var id = .ok found := by rw [Forest.var, hfound]
    simp [ownVariable?, own?, hget, hscope, hvar, hfound, hknown]

theorem Sound.declaredOn?_eq (hsound : forest.Sound) {path : List ScopeId}
    (hpath : ∀ id ∈ path, id.raw < forest.scopes.size) (name : Name) :
    forest.declaredOn? name path = .ok (path.findSome? (forest.own? · name)) := by
  induction path with
  | nil => rfl
  | cons id path ih =>
    have hrest := ih fun id hid => hpath id (List.mem_cons_of_mem _ hid)
    rw [declaredOn?, hsound.ownVariable?_eq (hpath id List.mem_cons_self), List.findSome?_cons]
    cases forest.own? id name with
    | none => exact hrest
    | some found => rfl

theorem Sound.lt_size_of_path (hsound : forest.Sound) (a : ScopeId) :
    ∀ id ∈ forest.path a, id.raw < forest.scopes.size :=
  fun _ hid => (hsound.mem_path_facts hid).1

theorem resolve_of_own {found : Variable} (hown : forest.ownVariable? a name = .ok (some found)) :
    forest.resolve a name = .ok (some found) := by
  rw [resolve, hown]
  rfl

/-- Only the root of a path has nowhere else to look. -/
theorem Sound.resolve_simple (hsound : forest.Sound) (ha : a.raw < forest.scopes.size)
    (hsimple : forest.Simple name) :
    forest.resolve a name = .ok ((forest.path a).findSome? (forest.own? · name)) := by
  have hscope := Array.getElem?_eq_getElem ha
  have hown := hsound.ownVariable?_eq ha name
  have hpath := path_eq_cons hscope
  cases hfound : forest.own? a name with
  | some found =>
    rw [resolve_of_own (hown.trans (congrArg _ hfound)), hpath, List.findSome?_cons, hfound]
  | none =>
    obtain ⟨text, htext, hplain⟩ := hsimple
    have hspelling : forest.spelling name = .ok text := by rw [spelling, htext]
    have hsearch := hsound.declaredOn?_eq (hsound.lt_size_of_path a) name
    rw [resolve, hown, hfound, scope_eq_ok_iff.mpr hscope]
    simp only [Except.ok_bind]
    cases houter : forest.scopes[a.raw].outer with
    | nil => simp [hpath, houter, hfound]
    | cons parent outer =>
      rw [hpath, houter] at hsearch
      simp only [hspelling, rootIdentifier?, hplain, Except.ok_bind]
      rw [hpath, houter]
      exact hsearch

theorem Sound.rootOn?_eq (hsound : forest.Sound) {path : List ScopeId}
    (hpath : ∀ id ∈ path, id.raw < forest.scopes.size) (root : String) :
    forest.rootOn? root path = .ok (path.findSome? (forest.ownSpelled? · root)) := by
  unfold rootOn? ownSpelled?
  cases forest.names.find? root with
  | some name => exact hsound.declaredOn?_eq hpath name
  | none =>
    have hnone : path.findSome? (fun _ => (none : Option Variable)) = none := by simp
    exact congrArg Except.ok hnone.symm

theorem Sound.scope_of_ownSpelled? (hsound : forest.Sound) {id : ScopeId} {found : Variable}
    (hfound : forest.ownSpelled? id text = some found) : found.scope = id := by
  obtain ⟨name, _, hown⟩ := Option.bind_eq_some_iff.mp hfound
  exact (hsound.own?_facts hown).1

/-- The scope of a root is where the root means something. -/
theorem Sound.home?_of_some (hsound : forest.Sound) {root : String} {found : Variable}
    (hfound : (forest.path a).findSome? (forest.ownSpelled? · root) = some found) :
    forest.home? a root = some found.scope := by
  rw [findSome?_eq_bind_find?] at hfound
  obtain ⟨id, hid, hown⟩ := Option.bind_eq_some_iff.mp hfound
  rw [home?, hid, hsound.scope_of_ownSpelled? hown, Option.some_or]

theorem home?_of_none {root : String}
    (hnone : (forest.path a).findSome? (forest.ownSpelled? · root) = none) :
    forest.home? a root = (forest.path a).getLast? := by
  rw [List.findSome?_eq_none_iff] at hnone
  rw [home?, List.find?_eq_none.mpr fun id hid => by simp [hnone id hid], Option.none_or]

/-- A root means what it means in its scope. -/
theorem Sound.findSome?_eq_bind_home? (hsound : forest.Sound) (root : String) :
    (forest.path a).findSome? (forest.ownSpelled? · root) =
      (forest.home? a root).bind (forest.ownSpelled? · root) := by
  cases hfound : (forest.path a).findSome? (forest.ownSpelled? · root) with
  | some found =>
    obtain ⟨id, _, hown⟩ := List.exists_of_findSome?_eq_some hfound
    rw [hsound.home?_of_some hfound, Option.bind_some, hsound.scope_of_ownSpelled? hown, hown]
  | none =>
    rw [home?_of_none hfound]
    cases hlast : (forest.path a).getLast? with
    | none => rfl
    | some id =>
      exact (List.findSome?_eq_none_iff.mp hfound id (List.mem_of_getLast? hlast)).symm

theorem mem_path_of_home? {root : String} (hhome : forest.home? a root = some b) :
    b ∈ forest.path a := by
  unfold home? at hhome
  rcases Option.or_eq_some_iff.mp hhome with hfind | ⟨_, hlast⟩
  · exact List.mem_of_find?_eq_some hfind
  · exact List.mem_of_getLast? hlast

/-- A qualified name is found in the scope itself, or else looked for where its root is. -/
theorem Sound.resolve_qualified (hsound : forest.Sound) (ha : a.raw < forest.scopes.size)
    {root : String} (htext : forest.names.spelling? name = some text)
    (hroot : rootIdentifier? text = some root) :
    forest.resolve a name =
      .ok ((forest.own? a name).or ((forest.home? a root).bind (forest.own? · name))) := by
  have hscope := Array.getElem?_eq_getElem ha
  have hpath := path_eq_cons hscope
  have hknown := hsound.lt_size_of_path a
  have hspelling : forest.spelling name = .ok text := by rw [spelling, htext]
  rw [resolve, hsound.ownVariable?_eq ha, scope_eq_ok_iff.mpr hscope]
  cases hself : forest.own? a name with
  | some found => rfl
  | none =>
    simp only [Except.ok_bind, Option.none_or]
    cases houter : forest.scopes[a.raw].outer with
    | nil =>
      rw [houter] at hpath
      -- The root of the path has no scope to look in but itself.
      cases hhome : forest.home? a root with
      | none => rfl
      | some id =>
        have hid := mem_path_of_home? hhome
        rw [hpath, List.mem_singleton] at hid
        rw [Option.bind_some, hid, hself]
        rfl
    | cons parent outer =>
      rw [houter] at hpath
      have hlast : (forest.path a).getLast? = some (outer.getLastD parent) := by
        simp [hpath, List.getLast?_cons]
      simp only [← hpath, hspelling, hroot, Except.ok_bind, hsound.rootOn?_eq hknown]
      cases hfound : (forest.path a).findSome? (forest.ownSpelled? · root) with
      | some found =>
        have hhome := hsound.home?_of_some hfound
        have hin := hknown _ (mem_path_of_home? hhome)
        rw [hhome, Option.bind_some, ← hsound.ownVariable?_eq hin]
      | none =>
        have hin := hknown _ (List.mem_of_getLast? hlast)
        rw [home?_of_none hfound, hlast, Option.bind_some, ← hsound.ownVariable?_eq hin]

theorem Sound.tells (hsound : forest.Sound) (ha : a.raw < forest.scopes.size)
    (hname : forest.Interned name) : forest.Tells a name := by
  obtain ⟨text, htext⟩ := hname
  cases hroot : rootIdentifier? text with
  | some root => exact ⟨_, hsound.resolve_qualified ha htext hroot⟩
  | none =>
    have hplain := rootIdentifier?_eq_none_iff.mp hroot
    exact ⟨_, hsound.resolve_simple ha ⟨text, htext, hplain⟩⟩

theorem Sound.resolve_eq (hsound : forest.Sound) (ha : a.raw < forest.scopes.size)
    (hname : forest.Interned name) : forest.resolve a name = .ok (forest.meaning? a name) :=
  (hsound.tells ha hname).resolve_eq

theorem Sound.declaredType_eq (hsound : forest.Sound) (ha : a.raw < forest.scopes.size)
    (hname : forest.Interned name) :
    forest.declaredType a name = .ok ((forest.meaning? a name).bind (·.type)) :=
  (hsound.tells ha hname).declaredType_eq

private theorem exists_own_of_declaredOn? {path : List ScopeId} {found : Variable}
    (hfound : forest.declaredOn? name path = .ok (some found)) :
    ∃ id ∈ path, forest.ownVariable? id name = .ok (some found) := by
  induction path with
  | nil => cases hfound
  | cons id path ih =>
    obtain ⟨own, hown, hrest⟩ := Except.bind_eq_ok_iff.mp hfound
    cases own with
    | none =>
      obtain ⟨inner, hinner, hown⟩ := ih hrest
      exact ⟨inner, List.mem_cons_of_mem id hinner, hown⟩
    | some var =>
      cases hrest
      exact ⟨id, List.mem_cons_self, hown⟩

private theorem Sound.scope_mem_of_rootOn? (hsound : forest.Sound) {path : List ScopeId}
    {root : String} {found : Variable} (hfound : forest.rootOn? root path = .ok (some found)) :
    found.scope ∈ path := by
  unfold rootOn? at hfound
  split at hfound
  next rootName _ =>
    obtain ⟨id, hid, hown⟩ := exists_own_of_declaredOn? hfound
    rw [(hsound.own?_facts (own?_eq_of_ownVariable? hown)).1]
    exact hid
  next => cases hfound

private theorem Sound.exists_own_of_resolve (hsound : forest.Sound) {found : Variable}
    (hfound : forest.resolve a name = .ok (some found)) :
    ∃ id ∈ forest.path a, forest.ownVariable? id name = .ok (some found) := by
  unfold resolve at hfound
  obtain ⟨own, hown, hfound⟩ := Except.bind_eq_ok_iff.mp hfound
  cases own with
  | some var =>
    cases hfound
    have hlt := (hsound.own?_facts (own?_eq_of_ownVariable? hown)).2.2
    exact ⟨a, mem_path_self hlt, hown⟩
  | none =>
    obtain ⟨scope, hscope, hfound⟩ := Except.bind_eq_ok_iff.mp hfound
    have hpath := path_eq_cons (scope_eq_ok_iff.mp hscope)
    split at hfound
    next => cases hfound
    next parent outer houter =>
      rw [houter] at hpath
      obtain ⟨text, _, hfound⟩ := Except.bind_eq_ok_iff.mp hfound
      split at hfound
      next => exact hpath ▸ exists_own_of_declaredOn? hfound
      next root _ =>
        obtain ⟨var, hroot, hfound⟩ := Except.bind_eq_ok_iff.mp hfound
        cases var with
        | some var => exact ⟨_, hpath ▸ hsound.scope_mem_of_rootOn? hroot, hfound⟩
        | none =>
          -- A root that means nothing leads to the end of the path.
          refine ⟨_, ?_, hfound⟩
          rw [hpath]
          exact List.mem_cons_of_mem a List.getLastD_mem_cons

theorem Sound.own?_of_resolve (hsound : forest.Sound) {found : Variable}
    (hfound : forest.resolve a name = .ok (some found)) :
    forest.own? found.scope name = some found := by
  obtain ⟨id, _, hown⟩ := hsound.exists_own_of_resolve hfound
  have hget := own?_eq_of_ownVariable? hown
  rw [(hsound.own?_facts hget).1]
  exact hget

/-- Whatever a name means in a scope is declared on the path of the scope. -/
theorem Sound.scope_mem_path (hsound : forest.Sound) {found : Variable}
    (hfound : forest.resolve a name = .ok (some found)) : found.scope ∈ forest.path a := by
  obtain ⟨id, hid, hown⟩ := hsound.exists_own_of_resolve hfound
  rw [(hsound.own?_facts (own?_eq_of_ownVariable? hown)).1]
  exact hid

private theorem Sound.eq_of_scopes_eq (hsound : forest.Sound) {found found' : Option Variable}
    (hfound : forest.resolve a name = .ok found) (hfound' : forest.resolve b name = .ok found')
    (hscopes : found.map (·.scope) = found'.map (·.scope)) : found = found' := by
  cases found with
  | none =>
    cases found' with
    | none => rfl
    | some var => cases hscopes
  | some var =>
    cases found' with
    | none => cases hscopes
    | some var' =>
      have hown := hsound.own?_of_resolve hfound
      have hown' := hsound.own?_of_resolve hfound'
      have hscope : var.scope = var'.scope := Option.some.inj hscopes
      rw [hscope, hown'] at hown
      exact hown.symm

theorem Sound.resolve_eq_of_sameBinding (hsound : forest.Sound)
    (hsame : forest.sameBinding a b name = .ok true) :
    forest.resolve a name = forest.resolve b name := by
  unfold sameBinding at hsame
  split at hsame
  next hab => rw [hab]
  next =>
    obtain ⟨scopeA, hscopeA, hsame⟩ := Except.bind_eq_ok_iff.mp hsame
    obtain ⟨scopeB, hscopeB, hsame⟩ := Except.bind_eq_ok_iff.mp hsame
    obtain ⟨foundA, hfoundA, hmapA⟩ := Except.bind_eq_ok_iff.mp hscopeA
    obtain ⟨foundB, hfoundB, hmapB⟩ := Except.bind_eq_ok_iff.mp hscopeB
    have hscopes : foundA.map (·.scope) = foundB.map (·.scope) := by
      rw [Except.ok.inj hmapA, Except.ok.inj hmapB]
      exact of_decide_eq_true (Except.ok.inj hsame)
    rw [hfoundA, hfoundB, hsound.eq_of_scopes_eq hfoundA hfoundB hscopes]

theorem Sound.sameBinding_of_tells (hsound : forest.Sound) (ha : forest.Tells a name)
    (hb : forest.Tells b name) :
    forest.sameBinding a b name =
      .ok (decide (forest.meaning? a name = forest.meaning? b name)) := by
  have hfoundA := ha.resolve_eq
  have hfoundB := hb.resolve_eq
  by_cases hab : a = b
  · subst hab
    simp
  · have hiff : ((forest.meaning? a name).map (·.scope) = (forest.meaning? b name).map (·.scope)) ↔
        forest.meaning? a name = forest.meaning? b name :=
      ⟨hsound.eq_of_scopes_eq hfoundA hfoundB, congrArg _⟩
    rw [sameBinding, declaringScope, declaringScope, hfoundA, hfoundB]
    simp [hab, hiff]

theorem Sound.sameBinding_eq (hsound : forest.Sound) (ha : a.raw < forest.scopes.size)
    (hb : b.raw < forest.scopes.size) (hname : forest.Interned name) :
    forest.sameBinding a b name =
      .ok (decide (forest.meaning? a name = forest.meaning? b name)) :=
  hsound.sameBinding_of_tells (hsound.tells ha hname) (hsound.tells hb hname)

/-- Scopes that are told apart, or are not, by a name are so by what it means in them. -/
theorem Sound.eq_decide_of_sameBinding (hsound : forest.Sound) {same : Bool}
    (hsame : forest.sameBinding a b name = .ok same) :
    same = decide (forest.meaning? a name = forest.meaning? b name) := by
  by_cases hab : a = b
  · subst hab
    rw [sameBinding_self] at hsame
    rw [← Except.ok.inj hsame]
    simp
  · have htells : forest.Tells a name ∧ forest.Tells b name := by
      rw [sameBinding, if_neg hab] at hsame
      obtain ⟨_, hscopeA, hsame⟩ := Except.bind_eq_ok_iff.mp hsame
      obtain ⟨_, hscopeB, _⟩ := Except.bind_eq_ok_iff.mp hsame
      obtain ⟨foundA, hfoundA, _⟩ := Except.bind_eq_ok_iff.mp hscopeA
      obtain ⟨foundB, hfoundB, _⟩ := Except.bind_eq_ok_iff.mp hscopeB
      exact ⟨⟨foundA, hfoundA⟩, ⟨foundB, hfoundB⟩⟩
    rw [hsound.sameBinding_of_tells htells.1 htells.2] at hsame
    exact (Except.ok.inj hsame).symm

/-- A simple name that means the same in two scopes of a path means it in all scopes between. -/
theorem Sound.meaning?_convex (hsound : forest.Sound) (hsimple : forest.Simple name)
    (hb : b ∈ forest.path a) (hc : c ∈ forest.path b)
    (hsame : forest.meaning? a name = forest.meaning? c name) :
    forest.meaning? b name = forest.meaning? c name := by
  have hmeaning : ∀ {id}, id.raw < forest.scopes.size →
      forest.meaning? id name = (forest.path id).findSome? (forest.own? · name) := by
    intro id hid
    rw [meaning?, hsound.resolve_simple hid hsimple]
  obtain ⟨hsize, _, before, hsplit⟩ := hsound.mem_path_facts hb
  have hsizeA := lt_size_of_mem_path hb
  have hsizeC := (hsound.mem_path_facts hc).1
  have hsearch : forest.meaning? a name =
      (before.findSome? (forest.own? · name)).or (forest.meaning? b name) := by
    rw [hmeaning hsizeA, ← hsplit, List.findSome?_append, hmeaning hsize]
  cases hbefore : before.findSome? (forest.own? · name) with
  | none =>
    rw [hbefore, Option.none_or] at hsearch
    rw [← hsearch, hsame]
  | some var =>
    -- The variable would have to stand both before `b` and behind it.
    exfalso
    rw [hbefore, Option.some_or] at hsearch
    obtain ⟨inner, hinner, hown⟩ := List.exists_of_findSome?_eq_some hbefore
    rw [hsearch, hmeaning hsizeC] at hsame
    obtain ⟨outer, houter, hown'⟩ := List.exists_of_findSome?_eq_some hsame.symm
    have hid : inner = outer := by
      rw [← (hsound.own?_facts hown).1, ← (hsound.own?_facts hown').1]
    have hdecr := hsound.path_decreasing a
    rw [← hsplit] at hdecr
    have hlt := (List.pairwise_append.mp hdecr).2.2 inner hinner outer
      (hsound.mem_path_trans hc houter)
    rw [hid] at hlt
    exact Nat.lt_irrefl _ hlt

end Forest
end FlowTyping
