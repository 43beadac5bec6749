import FlowTyping.Proofs.Forest.Lexical
import Mathlib.Data.List.Find

/-!
# What a declaration changes

A declaration adds one variable to one scope. So it can change the meaning of the name that it
declares and of the qualified names with this root, and of both only in scopes on whose paths the
declaring scope is: a simple name and the names below it are taken over as far as no scope further
in declares the root, a qualified name where its root leads to the declaring scope.
-/
namespace FlowTyping.Forest

/-- A forest with one more variable. All names and all paths are as before. -/
structure Adds (forest later : Forest) (added : Variable) : Prop where
  names : later.names = forest.names
  grown : later.Extends forest
  own? : ∀ id name, later.own? id name =
    if id = added.scope ∧ name = added.name then some added else forest.own? id name
  free : forest.own? added.scope added.name = none
  live : forest.Live added.scope

/-- No scope from one scope outwards up to another, without the other, declares a name. -/
def Unshadowed (forest : Forest) (a target : ScopeId) (name : Name) : Prop :=
  ∀ id ∈ forest.upTo a target, forest.own? id name = none

/-- A qualified name is looked for in a scope: its root means a variable of this scope, or it means
nothing and the scope is the global one. -/
def LeadsTo (forest : Forest) (a target : ScopeId) (name : Name) : Prop :=
  (∃ root found, forest.RootOf name root ∧ forest.resolve a root = .ok (some found) ∧
    found.scope = target) ∨
  ((∀ root, forest.RootOf name root → forest.resolve a root = .ok none) ∧ target = Forest.global)

structure Reframed (forest later : Forest) (added : Variable) (a : ScopeId) (name : Name) :
    Prop where
  outside : added.scope ∉ forest.path a → later.resolve a name = forest.resolve a name
  unrelated : name ≠ added.name → ¬forest.RootOf name added.name →
    later.resolve a name = forest.resolve a name
  own : forest.own? a name ≠ none → later.resolve a name = forest.resolve a name
  simple : added.scope ∈ forest.path a → name = added.name → forest.Simple name →
    (forest.Unshadowed a added.scope name → later.resolve a name = .ok (some added)) ∧
    (¬forest.Unshadowed a added.scope name → later.resolve a name = forest.resolve a name)
  qualified : added.scope ∈ forest.path a → name = added.name → ¬forest.Simple name →
    (a = added.scope ∨ (forest.own? a name = none ∧ forest.LeadsTo a added.scope name) →
      later.resolve a name = .ok (some added)) ∧
    (¬(a = added.scope ∨ (forest.own? a name = none ∧ forest.LeadsTo a added.scope name)) →
      later.resolve a name = forest.resolve a name)
  rooted : added.scope ∈ forest.path a → forest.RootOf name added.name →
    forest.own? a name = none →
      (forest.Unshadowed a added.scope added.name →
        later.resolve a name = .ok (forest.own? added.scope name)) ∧
      (¬forest.Unshadowed a added.scope added.name →
        later.resolve a name = forest.resolve a name)

variable {forest later : Forest} {added : Variable} {a id target : ScopeId} {name : Name}
  {text root : String}

theorem Sound.own?_enter (hsound : forest.Sound) {within : Scope}
    (hwithin : forest.scopes[id.raw]? = some within) (name : Name) (details : Variable.Details)
    (ordinal : Nat) (other : ScopeId) (asked : Name) :
    (forest.enter id name details ordinal).2.own? other asked =
      if other = id ∧ asked = name then
        some { details with
          id := ⟨forest.vars.size⟩, name := name, scope := id, ordinal := ordinal }
      else forest.own? other asked := by
  have hold : ∀ {scope : Scope}, forest.scopes[other.raw]? = some scope →
      (scope.index[asked]?.bind ((forest.enter id name details ordinal).2.vars[·.raw]?)) =
        scope.index[asked]?.bind (forest.vars[·.raw]?) := by
    intro scope hscope
    cases hvar : scope.index[asked]? with
    | none => rfl
    | some var =>
      obtain ⟨found, hfound, _⟩ := hsound.declared hscope hvar
      exact (vars_enter_of_some hfound id name details ordinal).trans hfound.symm
  change (forest.enter id name details ordinal).2.scopes[other.raw]?.bind _ = _
  rw [scopes_enter hwithin]
  by_cases hother : other = id
  · subst hother
    rw [if_pos rfl, Option.bind_some]
    change ((within.index.insert name _)[asked]?).bind _ = _
    rw [Std.ExtTreeMap.getElem?_insert]
    by_cases hasked : asked = name
    · simp [hasked, enter]
    · rw [if_neg fun h => hasked (Std.LawfulEqOrd.eq_of_compare h).symm, if_neg fun h => hasked h.2,
        hold hwithin, own?, hwithin]
      rfl
  · rw [if_neg fun h => hother (Handle.ext h.symm), if_neg fun h => hother h.1, own?]
    cases hscope : forest.scopes[other.raw]? with
    | none => rfl
    | some scope => exact hold hscope

/-- A declaration that succeeds adds the variable that it answers. -/
theorem Sound.adds_of_declare (hsound : forest.Sound) {details : Variable.Details} {var : VarId}
    (hdeclare : forest.declare id name details = .ok (var, later)) :
    ∃ added, later.var var = .ok added ∧ added.toDetails = details ∧ added.scope = id ∧
      added.name = name ∧ forest.Adds later added := by
  obtain ⟨within, hdeclares, henter⟩ :=
    tryDeclare_eq_ok_iff.mp (declare_eq_ok_iff.mp hdeclare)
  have hwithin := hdeclares.inside
  obtain ⟨rfl, rfl⟩ := Prod.mk.inj henter
  refine ⟨_, var_eq_ok_iff.mpr Array.getElem?_push_size, rfl, rfl, rfl, rfl,
    enter_extends forest id name details _, hsound.own?_enter hwithin name details _, ?_,
    within, hwithin, hdeclares.live⟩
  simp [own?, hwithin, Std.ExtTreeMap.getElem?_eq_none hdeclares.free]

theorem unshadowed_self (name : Name) : forest.Unshadowed a a name := by
  have hnone : forest.upTo a a = [] := by
    unfold upTo path
    split <;> simp
  simp [Unshadowed, hnone]

/-! ## Homes -/

theorem Adds.own?_self (hadds : forest.Adds later added) :
    later.own? added.scope added.name = some added := by
  rw [hadds.own?, if_pos ⟨rfl, rfl⟩]

theorem Adds.own?_of_scope_ne (hadds : forest.Adds later added) (hne : id ≠ added.scope) :
    later.own? id name = forest.own? id name := by
  rw [hadds.own?, if_neg fun h => hne h.1]

theorem Adds.own?_of_name_ne (hadds : forest.Adds later added) (hne : name ≠ added.name) :
    later.own? id name = forest.own? id name := by
  rw [hadds.own?, if_neg fun h => hne h.2]

theorem Adds.own?_of_declared (hadds : forest.Adds later added)
    (hown : forest.own? id name ≠ none) : later.own? id name = forest.own? id name := by
  rw [hadds.own?, if_neg]
  rintro ⟨rfl, rfl⟩
  exact hown hadds.free

theorem Adds.ownSpelled?_eq (hadds : forest.Adds later added) {rootName : Name}
    (hroot : forest.names.find? root = some rootName) (id : ScopeId) :
    later.ownSpelled? id root = later.own? id rootName := by
  rw [ownSpelled?, hadds.names, hroot]
  rfl

/-- The scope where a root is looked for depends on which scopes of the path declare it. -/
theorem Adds.home?_congr (hadds : forest.Adds later added) (ha : a.raw < forest.scopes.size)
    (hbound : ∀ id ∈ forest.path a,
      (later.ownSpelled? id root).isSome = (forest.ownSpelled? id root).isSome) :
    later.home? a root = forest.home? a root := by
  have hfind : (forest.path a).find? (fun id => (later.ownSpelled? id root).isSome) =
      (forest.path a).find? fun id => (forest.ownSpelled? id root).isSome :=
    List.find?_congr hbound
  rw [home?, home?, hadds.grown.path ha, hfind]

theorem Adds.home?_of_not_root (hadds : forest.Adds later added) (ha : a.raw < forest.scopes.size)
    (hroot : forest.names.find? root ≠ some added.name) :
    later.home? a root = forest.home? a root := by
  apply hadds.home?_congr ha
  intro id _
  unfold ownSpelled?
  rw [hadds.names]
  cases hfind : forest.names.find? root with
  | none => rfl
  | some rootName =>
    have hne : rootName ≠ added.name := fun h => hroot (hfind.trans (congrArg some h))
    rw [Option.bind_some, Option.bind_some, hadds.own?_of_name_ne hne]

theorem Adds.home?_of_unshadowed (hadds : forest.Adds later added)
    (hmem : added.scope ∈ forest.path a) (hroot : forest.names.find? root = some added.name)
    (hclear : forest.Unshadowed a added.scope added.name) :
    later.home? a root = some added.scope := by
  obtain ⟨rest, hsplit⟩ := upTo_append hmem
  have hbefore : (forest.upTo a added.scope).find? (fun id => (later.ownSpelled? id root).isSome) =
      none := by
    rw [List.find?_eq_none]
    intro id hid
    rw [hadds.ownSpelled?_eq hroot, hadds.own?_of_scope_ne (ne_of_mem_upTo hid), hclear id hid]
    simp
  have hhere : (later.ownSpelled? added.scope root).isSome = true := by
    rw [hadds.ownSpelled?_eq hroot, hadds.own?_self]
    rfl
  rw [home?, hadds.grown.path (lt_size_of_mem_path hmem), hsplit, List.find?_append, hbefore,
    Option.none_or, List.find?_cons_of_pos (by exact hhere), Option.some_or]

/-- Where the root is declared further in, it is looked for there, before and after. -/
theorem Adds.home?_of_shadowed (hadds : forest.Adds later added)
    (hmem : added.scope ∈ forest.path a) (hroot : forest.names.find? root = some added.name)
    (hshadowed : ¬forest.Unshadowed a added.scope added.name) :
    later.home? a root = forest.home? a root ∧ forest.home? a root ≠ some added.scope := by
  obtain ⟨rest, hsplit⟩ := upTo_append hmem
  have hsame : (forest.upTo a added.scope).find? (fun id => (later.ownSpelled? id root).isSome) =
      (forest.upTo a added.scope).find? fun id => (forest.ownSpelled? id root).isSome := by
    apply List.find?_congr
    intro id hid
    rw [hadds.ownSpelled?_eq hroot, hadds.own?_of_scope_ne (ne_of_mem_upTo hid), ownSpelled?, hroot,
      Option.bind_some]
  obtain ⟨nearer, hnearer⟩ : ∃ nearer, (forest.upTo a added.scope).find?
      (fun id => (forest.ownSpelled? id root).isSome) = some nearer := by
    rw [← Option.isSome_iff_exists, List.find?_isSome]
    simp only [Unshadowed, not_forall] at hshadowed
    obtain ⟨id, hid, hown⟩ := hshadowed
    refine ⟨id, hid, ?_⟩
    rw [ownSpelled?, hroot, Option.bind_some]
    exact Option.isSome_iff_ne_none.mpr hown
  have hhome : forest.home? a root = some nearer := by
    rw [home?, hsplit, List.find?_append, hnearer, Option.some_or, Option.some_or]
  have hlater : later.home? a root = some nearer := by
    rw [home?, hadds.grown.path (lt_size_of_mem_path hmem), hsplit, List.find?_append, hsame,
      hnearer, Option.some_or, Option.some_or]
  rw [hhome, hlater]
  refine ⟨rfl, fun hhere => ?_⟩
  exact ne_of_mem_upTo (List.mem_of_find?_eq_some hnearer) (Option.some.inj hhere)

/-! ## Where qualified names lead -/

theorem rootOf_iff (htext : forest.names.spelling? name = some text)
    (hroot : rootIdentifier? text = some root) {rootName : Name} :
    forest.RootOf name rootName ↔ forest.names.find? root = some rootName := by
  constructor
  · rintro ⟨text', root', htext', hroot', hfind⟩
    obtain rfl := Option.some.inj (htext.symm.trans htext')
    obtain rfl := Option.some.inj (hroot.symm.trans hroot')
    exact hfind
  · exact fun hfind => ⟨text, root, htext, hroot, hfind⟩

/-- The root of a qualified name means its innermost declaration. -/
theorem Built.resolve_root (hbuilt : forest.Built) (ha : a.raw < forest.scopes.size)
    (htext : forest.names.spelling? name = some text) (hroot : rootIdentifier? text = some root)
    {rootName : Name} (hfind : forest.names.find? root = some rootName) :
    forest.resolve a rootName = .ok ((forest.path a).findSome? (forest.ownSpelled? · root)) := by
  have hsimple := RootOf.simple hbuilt.names_sound ((rootOf_iff htext hroot).mpr hfind)
  have hown : ∀ id, forest.ownSpelled? id root = forest.own? id rootName := by
    intro id
    rw [ownSpelled?, hfind, Option.bind_some]
  simp only [hbuilt.sound.resolve_simple ha hsimple, hown]

theorem Built.leadsTo_iff (hbuilt : forest.Built) (hlive : forest.Live target)
    (hmem : target ∈ forest.path a) (htext : forest.names.spelling? name = some text)
    (hroot : rootIdentifier? text = some root) :
    forest.LeadsTo a target name ↔ forest.home? a root = some target := by
  have hsound := hbuilt.sound
  have hmeans : ∀ {rootName}, forest.names.find? root = some rootName →
      forest.resolve a rootName = .ok ((forest.path a).findSome? (forest.ownSpelled? · root)) :=
    fun hfind => hbuilt.resolve_root (lt_size_of_mem_path hmem) htext hroot hfind
  unfold LeadsTo
  simp only [rootOf_iff htext hroot]
  cases hsearch : (forest.path a).findSome? (forest.ownSpelled? · root) with
  | some var =>
    obtain ⟨id, _, hdeclared⟩ := List.exists_of_findSome?_eq_some hsearch
    obtain ⟨rootName, hfind, _⟩ := Option.bind_eq_some_iff.mp hdeclared
    have hresolve := (hmeans hfind).trans (congrArg Except.ok hsearch)
    rw [hsound.home?_of_some hsearch, Option.some.injEq]
    constructor
    · rintro (⟨other, found, hother, hfound, hscope⟩ | ⟨hnone, _⟩)
      · obtain rfl := Option.some.inj (hfind.symm.trans hother)
        rw [hresolve, Except.ok.injEq, Option.some.injEq] at hfound
        rw [hfound, hscope]
      · have hundeclared := hnone rootName hfind
        rw [hresolve, Except.ok.injEq] at hundeclared
        cases hundeclared
    · exact fun hscope => .inl ⟨rootName, var, hfind, hresolve, hscope⟩
  | none =>
    have hnone : ∀ rootName, forest.names.find? root = some rootName →
        forest.resolve a rootName = .ok none :=
      fun rootName hfind => (hmeans hfind).trans (congrArg Except.ok hsearch)
    rw [home?_of_none hsearch]
    constructor
    · rintro (⟨rootName, found, hfind, hfound, _⟩ | ⟨_, rfl⟩)
      · rw [hnone rootName hfind, Except.ok.injEq] at hfound
        cases hfound
      · exact hsound.getLast?_path_of_global_mem hmem
    · intro hlast
      refine .inr ⟨hnone, ?_⟩
      rcases hsound.getLast?_path (lt_size_of_mem_path hmem) with hglobal | ⟨hpath, hdead⟩
      · exact Option.some.inj (hlast.symm.trans hglobal)
      · rw [hpath, List.mem_singleton] at hmem
        exact absurd (hmem ▸ hlive) hdead

/-! ## Names after a declaration -/

/-- A name is found in the scope itself, or else where its root is. A simple name is its own
root. -/
theorem Built.resolve_home (hbuilt : forest.Built) (ha : a.raw < forest.scopes.size)
    (htext : forest.names.spelling? name = some text) :
    forest.resolve a name = .ok ((forest.own? a name).or
      ((forest.home? a (rootText text)).bind (forest.own? · name))) := by
  rw [hbuilt.sound.resolve_spelled hbuilt.names_sound ha htext, lookup?]
  simp only [ownSpelled?_eq_own? hbuilt.names_sound htext]

section Reframing
variable (hadds : forest.Adds later added) (hbuilt : forest.Built) (hbuilt' : later.Built)
  (ha : a.raw < forest.scopes.size) (htext : forest.names.spelling? name = some text)
include hadds hbuilt' ha htext

theorem Adds.resolve_later :
    later.resolve a name = .ok ((later.own? a name).or
      ((later.home? a (rootText text)).bind (later.own? · name))) :=
  hbuilt'.resolve_home (hadds.grown.lt_size ha) (hadds.names ▸ htext)

theorem Adds.resolve_of_unshadowed (hmem : added.scope ∈ forest.path a)
    (hroot : forest.names.find? (rootText text) = some added.name)
    (hclear : forest.Unshadowed a added.scope added.name) :
    later.resolve a name = .ok ((later.own? a name).or (later.own? added.scope name)) := by
  rw [hadds.resolve_later hbuilt' ha htext, hadds.home?_of_unshadowed hmem hroot hclear,
    Option.bind_some]

include hbuilt

/-- A name keeps its meaning if the scopes that decide on it do. -/
theorem Adds.resolve_congr (hown : later.own? a name = forest.own? a name)
    (hhome : later.home? a (rootText text) = forest.home? a (rootText text))
    (hfound : ∀ home, forest.home? a (rootText text) = some home →
      later.own? home name = forest.own? home name) :
    later.resolve a name = forest.resolve a name := by
  rw [hadds.resolve_later hbuilt' ha htext, hbuilt.resolve_home ha htext, hown, hhome]
  cases hhome : forest.home? a (rootText text) with
  | none => rfl
  | some home => rw [Option.bind_some, Option.bind_some, hfound home hhome]

theorem Adds.resolve_of_outside (hout : added.scope ∉ forest.path a) :
    later.resolve a name = forest.resolve a name := by
  have hsame : ∀ {id}, id ∈ forest.path a → ∀ asked, later.own? id asked = forest.own? id asked :=
    fun hid asked => hadds.own?_of_scope_ne fun h => hout (h ▸ hid)
  apply hadds.resolve_congr hbuilt hbuilt' ha htext (hsame (mem_path_self ha) name)
  · apply hadds.home?_congr ha
    intro id hid
    unfold ownSpelled?
    rw [hadds.names]
    cases forest.names.find? (rootText text) with
    | none => rfl
    | some rootName => rw [Option.bind_some, Option.bind_some, hsame hid]
  · exact fun home hhome => hsame (mem_path_of_home? hhome) name

theorem Adds.resolve_of_declared (hown : forest.own? a name ≠ none) :
    later.resolve a name = forest.resolve a name := by
  obtain ⟨found, hfound⟩ := Option.ne_none_iff_exists'.mp hown
  rw [hadds.resolve_later hbuilt' ha htext, hbuilt.resolve_home ha htext,
    hadds.own?_of_declared hown, hfound, Option.some_or, Option.some_or]

theorem Adds.resolve_of_unrelated (hname : name ≠ added.name)
    (hroot : ¬forest.RootOf name added.name) : later.resolve a name = forest.resolve a name := by
  have hother : forest.names.find? (rootText text) ≠ some added.name := by
    cases hstart : rootIdentifier? text with
    | none =>
      rw [rootText_of_simple (rootIdentifier?_eq_none_iff.mp hstart),
        (hbuilt.names_sound text name).mpr htext]
      exact fun h => hname (Option.some.inj h)
    | some root =>
      rw [rootText_of_qualified hstart]
      exact fun h => hroot ((rootOf_iff htext hstart).mpr h)
  exact hadds.resolve_congr hbuilt hbuilt' ha htext (hadds.own?_of_name_ne hname)
    (hadds.home?_of_not_root ha hother) fun _ _ => hadds.own?_of_name_ne hname

theorem Adds.resolve_of_shadowed (hmem : added.scope ∈ forest.path a)
    (hroot : forest.names.find? (rootText text) = some added.name)
    (hshadowed : ¬forest.Unshadowed a added.scope added.name) :
    later.resolve a name = forest.resolve a name := by
  obtain ⟨hhome, hother⟩ := hadds.home?_of_shadowed hmem hroot hshadowed
  have hne : a ≠ added.scope := fun h => hshadowed (h ▸ unshadowed_self _)
  refine hadds.resolve_congr hbuilt hbuilt' ha htext (hadds.own?_of_scope_ne hne) hhome ?_
  intro home hfound
  exact hadds.own?_of_scope_ne fun h => hother (h ▸ hfound)

/-- A simple name means the new variable as far as no scope further in declares it. -/
theorem Adds.resolve_of_simple (hmem : added.scope ∈ forest.path a) (hname : name = added.name)
    (hplain : isQualified text = false) (hclear : forest.Unshadowed a added.scope name) :
    later.resolve a name = .ok (some added) := by
  subst hname
  have hroot : forest.names.find? (rootText text) = some added.name := by
    rw [rootText_of_simple hplain]
    exact (hbuilt.names_sound text _).mpr htext
  rw [hadds.resolve_of_unshadowed hbuilt' ha htext hmem hroot hclear, hadds.own?_self]
  by_cases hself : a = added.scope
  · rw [hself, hadds.own?_self, Option.some_or]
  · have hfirst := hbuilt.sound.mem_upTo (mem_path_self ha) hmem hself
    rw [hadds.own?_of_scope_ne hself, hclear a hfirst, Option.none_or]

/-- A qualified name means the new variable where its root leads to the scope of the variable. -/
theorem Adds.resolve_of_qualified (hmem : added.scope ∈ forest.path a) (hname : name = added.name)
    {root : String} (hroot : rootIdentifier? text = some root) :
    ((a = added.scope ∨ (forest.own? a name = none ∧ forest.LeadsTo a added.scope name)) →
      later.resolve a name = .ok (some added)) ∧
    (¬(a = added.scope ∨ (forest.own? a name = none ∧ forest.LeadsTo a added.scope name)) →
      later.resolve a name = forest.resolve a name) := by
  subst hname
  -- The declaration is not one of the root, so it leaves the home of the root alone.
  have hother : forest.names.find? (rootText text) ≠ some added.name := by
    intro hfind
    rw [rootText_of_qualified hroot] at hfind
    exact ((rootOf_iff htext hroot).mpr hfind).ne hbuilt.names_sound rfl
  have hhome := hadds.home?_of_not_root ha hother
  have hleads := hbuilt.leadsTo_iff hadds.live hmem htext hroot
  rw [← rootText_of_qualified hroot] at hleads
  constructor
  · rintro (hself | ⟨hown, hled⟩)
    · rw [hadds.resolve_later hbuilt' ha htext, hself, hadds.own?_self, Option.some_or]
    · rw [hadds.resolve_later hbuilt' ha htext, hhome, hleads.mp hled, Option.bind_some,
        hadds.own?_self]
      by_cases hself : a = added.scope
      · rw [hself, hadds.own?_self, Option.some_or]
      · rw [hadds.own?_of_scope_ne hself, hown, Option.none_or]
  · intro hnot
    rw [not_or, not_and] at hnot
    by_cases hown : forest.own? a added.name = none
    · have hne := hnot.2 hown
      rw [hleads] at hne
      apply hadds.resolve_congr hbuilt hbuilt' ha htext (hadds.own?_of_scope_ne hnot.1) hhome
      intro home hfound
      exact hadds.own?_of_scope_ne fun h => hne (h ▸ hfound)
    · exact hadds.resolve_of_declared hbuilt hbuilt' ha htext hown

theorem Adds.reframed : forest.Reframed later added a name where
  outside := hadds.resolve_of_outside hbuilt hbuilt' ha htext
  unrelated := hadds.resolve_of_unrelated hbuilt hbuilt' ha htext
  own := hadds.resolve_of_declared hbuilt hbuilt' ha htext
  simple hmem hname hsimple := by
    obtain ⟨text', htext', hplain⟩ := hsimple
    obtain rfl := Option.some.inj (htext.symm.trans htext')
    refine ⟨hadds.resolve_of_simple hbuilt hbuilt' ha htext hmem hname hplain, fun hshadowed => ?_⟩
    subst hname
    apply hadds.resolve_of_shadowed hbuilt hbuilt' ha htext hmem _ hshadowed
    rw [rootText_of_simple hplain]
    exact (hbuilt.names_sound text _).mpr htext
  qualified hmem hname hdotted := by
    cases hroot : rootIdentifier? text with
    | none => exact absurd ⟨text, htext, rootIdentifier?_eq_none_iff.mp hroot⟩ hdotted
    | some root => exact hadds.resolve_of_qualified hbuilt hbuilt' ha htext hmem hname hroot
  rooted hmem hrooted hown := by
    have hname := hrooted.ne hbuilt.names_sound
    obtain ⟨text', root, htext', hroot, hfind⟩ := hrooted
    obtain rfl := Option.some.inj (htext.symm.trans htext')
    rw [← rootText_of_qualified hroot] at hfind
    refine ⟨fun hclear => ?_, hadds.resolve_of_shadowed hbuilt hbuilt' ha htext hmem hfind⟩
    rw [hadds.resolve_of_unshadowed hbuilt' ha htext hmem hfind hclear,
      hadds.own?_of_name_ne hname, hadds.own?_of_name_ne hname, hown, Option.none_or]

end Reframing

/-- What a declaration changes and what it leaves as it is. -/
theorem Built.declare_reframes (hbuilt : forest.Built) {details : Variable.Details} {var : VarId}
    (hdeclare : forest.declare id name details = .ok (var, later)) :
    ∃ added, later.var var = .ok added ∧ added.toDetails = details ∧ added.scope = id ∧
      added.name = name ∧ ∀ a other, a.raw < forest.scopes.size → forest.Interned other →
        forest.Reframed later added a other := by
  obtain ⟨added, hvar, hdetails, hscope, hname, hadds⟩ := hbuilt.sound.adds_of_declare hdeclare
  refine ⟨added, hvar, hdetails, hscope, hname, fun a other ha hother => ?_⟩
  obtain ⟨text, htext⟩ := hother
  have hchange := tryDeclare_change (declare_eq_ok_iff.mp hdeclare)
  exact hadds.reframed hbuilt (hbuilt.change hchange) ha htext

/-- A global `a` with a property, a block, and a block inside that one. -/
def nestedBlocks : Forest :=
  (ofRoot .initial ⟨0⟩).after
    [.declare ⟨0⟩ (.spelled "a") ⟨none, none, none, false⟩,
      .declare ⟨0⟩ (.spelled "a.b") ⟨none, none, none, false⟩,
      .addScope ⟨0⟩ ⟨1⟩ .block [] none, .addScope ⟨1⟩ ⟨2⟩ .block [] none]

/-- An `a` of the outer block is seen in the inner one and hides the property there. The global
scope does not change. -/
theorem declare_reframes_of_nestedBlocks :
    ∃ var later, nestedBlocks.declare ⟨1⟩ ⟨5⟩ ⟨none, none, none, false⟩ = .ok (var, later) ∧
      (∃ found, later.var var = .ok found ∧ later.resolve ⟨2⟩ ⟨5⟩ = .ok (some found)) ∧
      (∃ found, nestedBlocks.resolve ⟨2⟩ ⟨6⟩ = .ok (some found)) ∧
      later.resolve ⟨2⟩ ⟨6⟩ = .ok none ∧ later.resolve ⟨0⟩ ⟨6⟩ = nestedBlocks.resolve ⟨0⟩ ⟨6⟩ := by
  have hbuilt : nestedBlocks.Built := ⟨⟨0⟩, _, rfl⟩
  have hsucceeds : (nestedBlocks.declare ⟨1⟩ ⟨5⟩ ⟨none, none, none, false⟩).isOk = true := by
    decide +kernel
  obtain ⟨⟨var, later⟩, hdeclare⟩ : ∃ made,
      nestedBlocks.declare ⟨1⟩ ⟨5⟩ ⟨none, none, none, false⟩ = .ok made := by
    cases hmade : nestedBlocks.declare ⟨1⟩ ⟨5⟩ ⟨none, none, none, false⟩ with
    | error fault => rw [hmade] at hsucceeds; cases hsucceeds
    | ok made => exact ⟨made, rfl⟩
  obtain ⟨added, hvar, _, hscope, hname, hframe⟩ := hbuilt.declare_reframes hdeclare
  have hroot : nestedBlocks.RootOf ⟨6⟩ ⟨5⟩ :=
    ⟨"a.b", "a", by decide +kernel, by decide +kernel, by decide +kernel⟩
  have hinner := hframe ⟨2⟩ ⟨5⟩ (by decide +kernel) (by decide +kernel)
  have hhidden := hframe ⟨2⟩ ⟨6⟩ (by decide +kernel) (by decide +kernel)
  have houter := hframe ⟨0⟩ ⟨6⟩ (by decide +kernel) (by decide +kernel)
  have hclear : nestedBlocks.Unshadowed ⟨2⟩ ⟨1⟩ ⟨5⟩ := by
    unfold Unshadowed
    decide +kernel
  have hfound : ((nestedBlocks.meaning? ⟨2⟩ ⟨6⟩).isSome) = true := by decide +kernel
  obtain ⟨found, hfound⟩ := Option.isSome_iff_exists.mp hfound
  refine ⟨var, later, hdeclare, ⟨added, hvar, ?_⟩, ⟨found, resolve_of_meaning? hfound⟩, ?_, ?_⟩
  · refine (hinner.simple ?_ hname.symm ⟨"a", by decide +kernel, by decide +kernel⟩).1 ?_
    · rw [hscope]
      decide +kernel
    · rw [hscope]
      exact hclear
  · rw [(hhidden.rooted ?_ (hname ▸ hroot) (by decide +kernel)).1 ?_, hscope]
    · decide +kernel
    · rw [hscope]
      decide +kernel
    · rw [hscope, hname]
      exact hclear
  · apply houter.outside
    rw [hscope]
    decide +kernel

end FlowTyping.Forest
