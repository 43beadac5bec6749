import FlowTyping.Proofs.Forest.Lexical
import Mathlib.Data.List.Sort

/-!
# Visible variables

The table of variables holds the declarations of all scopes, the older first. Along the path of a
scope they give the variables that can be seen from it: their names are the visible names, and the
first of a simple name is what the name means.
-/
namespace FlowTyping

private theorem filter_name_eq {vars : List Variable}
    (hdistinct : vars.Pairwise fun first second => first.name ≠ second.name) (name : Name) :
    vars.filter (·.name = name) = (vars.find? (·.name = name)).toList := by
  induction vars with
  | nil => rfl
  | cons var vars ih =>
    obtain ⟨hfirst, hdistinct⟩ := List.pairwise_cons.mp hdistinct
    by_cases hname : var.name = name
    · have hrest : vars.filter (·.name = name) = [] := by
        rw [List.filter_eq_nil_iff]
        intro other hother hsame
        exact hfirst other hother (hname.trans (of_decide_eq_true hsame).symm)
      rw [List.filter_cons_of_pos (by simpa using hname), hrest,
        List.find?_cons_of_pos (by simpa using hname), Option.toList_some]
    · rw [List.filter_cons_of_neg (by simpa using hname),
        List.find?_cons_of_neg (by simpa using hname), ih hdistinct]

namespace Forest

def declarations (forest : Forest) (id : ScopeId) : List Variable :=
  forest.vars.toList.filter (·.scope = id)

variable {forest : Forest} {a id : ScopeId} {name : Name}

theorem mem_declarations {found : Variable} :
    found ∈ forest.declarations id ↔ found ∈ forest.vars ∧ found.scope = id := by
  rw [declarations, List.mem_filter, Array.mem_toList_iff, decide_eq_true_eq]

theorem Whole.increasing_declarations (hwhole : forest.Whole) (id : ScopeId) :
    (forest.declarations id).Pairwise fun first second => first.id.raw < second.id.raw := by
  apply List.Pairwise.filter
  rw [List.pairwise_iff_getElem]
  intro i j hi hj hlt
  have hid : ∀ {k : Nat} (hk : k < forest.vars.toList.length), forest.vars.toList[k].id.raw = k := by
    intro k hk
    have hplace : forest.vars[(⟨k⟩ : VarId).raw]? = some forest.vars.toList[k] := by
      rw [← Array.getElem?_toList, List.getElem?_eq_getElem hk]
    rw [(hwhole.vars hplace).id]
  rw [hid hi, hid hj]
  exact hlt

/-- A scope lists its declarations in the order in which they were made. -/
theorem Built.variablesOf_eq (hbuilt : forest.Built) (hid : id.raw < forest.scopes.size) :
    forest.variablesOf id = .ok (forest.declarations id) := by
  have hwhole := hbuilt.whole
  have hget := Array.getElem?_eq_getElem hid
  generalize forest.scopes[id.raw] = scope at hget
  obtain ⟨own, hown⟩ := hbuilt.wellFormed.declares (scope_eq_ok_iff.mpr hget)
  have hall := hown.all
  rw [variablesOf, scope_eq_ok_iff.mpr hget, Except.ok_bind] at hall
  have hmem : ∀ found, found ∈ own ↔ found ∈ forest.declarations id := by
    intro found
    rw [Except.mem_of_mapM hall, mem_declarations]
    constructor
    · rintro ⟨var, hvar, hfound⟩
      obtain ⟨i, hi⟩ := List.mem_iff_getElem?.mp hvar
      obtain ⟨found', hfound', _, hscope, _⟩ := (hwhole.scopes hget).entry (by simpa using hi)
      obtain rfl := Option.some.inj ((var_eq_ok_iff.mp hfound).symm.trans hfound')
      exact ⟨Array.mem_of_getElem? hfound', hscope⟩
    · rintro ⟨hfound, rfl⟩
      obtain ⟨i, hi⟩ := Array.mem_iff_getElem?.mp hfound
      have hplace : forest.vars[(⟨i⟩ : VarId).raw]? = some found := hi
      obtain ⟨_, scope', hscope', hentry⟩ := hwhole.vars hplace
      obtain rfl := Option.some.inj (hget.symm.trans hscope')
      exact ⟨⟨i⟩, Array.mem_toList_iff.mpr (Array.mem_of_getElem? hentry),
        var_eq_ok_iff.mpr hplace⟩
  -- Both lists are in the order of the variables, so their members make them equal.
  let older : Variable → Variable → Prop := fun first second => first.id.raw < second.id.raw
  have : Std.Irrefl older := ⟨fun _ => Nat.lt_irrefl _⟩
  have : Std.Antisymm older := ⟨fun _ _ hlt hgt => absurd hgt (Nat.lt_asymm hlt)⟩
  have hsame : own = forest.declarations id :=
    List.Pairwise.eq_of_mem_iff (r := older) hown.increasing
      (hwhole.increasing_declarations id) hmem
  rw [hown.all, hsame]

theorem Built.distinct_declarations (hbuilt : forest.Built) (hid : id.raw < forest.scopes.size) :
    (forest.declarations id).Pairwise fun first second => first.name ≠ second.name := by
  obtain ⟨own, hown⟩ :=
    hbuilt.wellFormed.declares (scope_eq_ok_iff.mpr (Array.getElem?_eq_getElem hid))
  have hall := hown.all
  rw [hbuilt.variablesOf_eq hid, Except.ok.injEq] at hall
  rw [hall]
  exact hown.distinct

/-- A scope finds a name among its declarations. -/
theorem Built.own?_eq_find? (hbuilt : forest.Built) (id : ScopeId) (name : Name) :
    forest.own? id name = (forest.declarations id).find? (·.name = name) := by
  cases hfind : (forest.declarations id).find? (·.name = name) with
  | some found =>
    obtain ⟨hmem, hscope⟩ := mem_declarations.mp (List.mem_of_find?_eq_some hfind)
    have hname : found.name = name := by simpa using List.find?_some hfind
    exact hbuilt.own?_eq_some_iff.mpr ⟨hmem, hscope, hname⟩
  | none =>
    rw [Option.eq_none_iff_forall_not_mem]
    intro found hown
    obtain ⟨hmem, hscope, hname⟩ := hbuilt.own?_eq_some_iff.mp hown
    have hnone := List.find?_eq_none.mp hfind found (mem_declarations.mpr ⟨hmem, hscope⟩)
    exact hnone (by simpa using hname)

/-- The variables that can be seen from a scope, innermost scope first. -/
def visibleVariables (forest : Forest) (path : List ScopeId) : List Variable :=
  path.flatMap forest.declarations

theorem Built.visibleNames_eq (hbuilt : forest.Built) (ha : a.raw < forest.scopes.size) :
    forest.visibleNames a = .ok ((forest.visibleVariables (forest.path a)).map (·.name)) := by
  have hnames : (forest.path a).mapM forest.namesOf =
      .ok ((forest.path a).map fun id => (forest.declarations id).map (·.name)) := by
    rw [Except.mapM_eq_ok_iff, List.forall₂_map_right_iff, List.forall₂_same]
    intro id hid
    rw [namesOf, hbuilt.variablesOf_eq (hbuilt.sound.lt_size_of_path a id hid)]
    rfl
  rw [visibleNames, ancestors_eq_path ha, Except.ok_bind, hnames, visibleVariables,
    List.map_flatMap, List.flatMap_def]
  rfl

/-- A name is seen once for every scope that declares it. -/
theorem Built.filter_visibleVariables (hbuilt : forest.Built) {path : List ScopeId}
    (hpath : ∀ id ∈ path, id.raw < forest.scopes.size) (name : Name) :
    ((forest.visibleVariables path).filter (·.name = name)).map (·.scope) =
      path.filter fun id => (forest.own? id name).isSome := by
  induction path with
  | nil => rfl
  | cons id path ih =>
    obtain ⟨hid, hpath⟩ := List.forall_mem_cons.mp hpath
    have hown := hbuilt.own?_eq_find? id name
    have hall := ih hpath
    rw [visibleVariables] at hall ⊢
    rw [List.flatMap_cons, List.filter_append, List.map_append, hall, List.filter_cons,
      filter_name_eq (hbuilt.distinct_declarations hid), ← hown]
    cases hfound : forest.own? id name with
    | none => rfl
    | some found =>
      have hscope := (hbuilt.own?_eq_some_iff.mp hfound).2.1
      simp [hscope]

/-- A simple name means the first visible variable of the name. -/
theorem Built.resolve_eq_find? (hbuilt : forest.Built) (ha : a.raw < forest.scopes.size)
    (hsimple : forest.Simple name) :
    forest.resolve a name =
      .ok ((forest.visibleVariables (forest.path a)).find? (·.name = name)) := by
  rw [hbuilt.sound.resolve_simple ha hsimple, visibleVariables, List.find?_flatMap]
  simp only [hbuilt.own?_eq_find?]

/-- How a name occurs in the variables that are visible along a path, where `answer` is what the name
means at the start of the path. -/
structure Shows (forest : Forest) (path : List ScopeId) (visible : List Variable) (name : Name)
    (answer : Option Variable) : Prop where
  complete : answer.isSome → name ∈ visible.map (·.name)
  once : (visible.filter (·.name = name)).map (·.scope) =
    path.filter fun id => (forest.own? id name).isSome
  converse : forest.Simple name → name ∈ visible.map (·.name) → answer.isSome
  first : forest.Simple name → visible.find? (·.name = name) = answer
  home : forest.Simple name →
    (path.find? fun id => (forest.own? id name).isSome) = answer.map (·.scope)

theorem Built.shows (hbuilt : forest.Built) (ha : a.raw < forest.scopes.size)
    {answer : Option Variable} (hanswer : forest.resolve a name = .ok answer) :
    forest.Shows (forest.path a) (forest.visibleVariables (forest.path a)) name answer := by
  have hsound := hbuilt.sound
  have honce := hbuilt.filter_visibleVariables (hsound.lt_size_of_path a) name
  have hfirst : forest.Simple name →
      (forest.visibleVariables (forest.path a)).find? (·.name = name) = answer := by
    intro hsimple
    rw [hbuilt.resolve_eq_find? ha hsimple] at hanswer
    exact Except.ok.inj hanswer
  refine ⟨fun hsome => ?_, honce, fun hsimple hmem => ?_, hfirst, fun hsimple => ?_⟩
  · obtain ⟨found, rfl⟩ := Option.isSome_iff_exists.mp hsome
    exact hbuilt.listed.mem_visibleNames hsound hanswer (hbuilt.visibleNames_eq ha)
  · obtain ⟨found, hfound, hname⟩ := List.mem_map.mp hmem
    rw [← hfirst hsimple, List.find?_isSome]
    exact ⟨found, hfound, by simpa using hname⟩
  · rw [← List.head?_filter, ← honce, List.head?_map, List.head?_filter, hfirst hsimple]

/-- The visible names of a scope are those declared along its path, innermost scope first and the
names of each scope in the order of declaration. A name that means anything is one of them, every
scope that declares a name brings it once, and a simple name means its first occurrence. -/
theorem Built.visibleNames_complete (hbuilt : forest.Built) (ha : a.raw < forest.scopes.size)
    (hname : forest.Interned name) :
    ∃ path visible answer, forest.ancestors a = .ok path ∧ path.Nodup ∧
      forest.visibleNames a = .ok (visible.map (·.name)) ∧
      visible = path.flatMap forest.declarations ∧
      (∀ id ∈ path, forest.variablesOf id = .ok (forest.declarations id) ∧
        forest.ownVariable? id name = .ok (forest.own? id name)) ∧
      forest.resolve a name = .ok answer ∧ forest.Shows path visible name answer := by
  have hsound := hbuilt.sound
  obtain ⟨answer, hanswer⟩ := hsound.tells ha hname
  refine ⟨forest.path a, _, answer, ancestors_eq_path ha, hsound.nodup_path a,
    hbuilt.visibleNames_eq ha, rfl, fun id hid => ?_, hanswer, hbuilt.shows ha hanswer⟩
  have hknown := hsound.lt_size_of_path a id hid
  exact ⟨hbuilt.variablesOf_eq hknown, hsound.ownVariable?_eq hknown name⟩

/-- Inside a block with an `a` of its own the global `a` comes second, and the property of the global
`a` is among the names although it means nothing there. -/
theorem visibleNames_complete_of_shadowed :
    shadowed.Interned ⟨5⟩ ∧ shadowed.visibleNames ⟨2⟩ = .ok [⟨5⟩, ⟨5⟩, ⟨6⟩] ∧
      (∃ found, shadowed.resolve ⟨2⟩ ⟨5⟩ = .ok (some found) ∧ found.scope = ⟨1⟩) ∧
      shadowed.resolve ⟨2⟩ ⟨6⟩ = .ok none := by
  have hbuilt : shadowed.Built := ⟨⟨0⟩, _, rfl⟩
  have hinterned : shadowed.Interned ⟨5⟩ := by decide +kernel
  have hsimple : shadowed.Simple ⟨5⟩ := ⟨"a", by decide +kernel, by decide +kernel⟩
  have hancestors : shadowed.ancestors ⟨2⟩ = .ok [⟨2⟩, ⟨1⟩, ⟨0⟩] := by decide +kernel
  obtain ⟨path, visible, answer, hpath, _, hnames, hvisible, _, hanswer, hshows⟩ :=
    hbuilt.visibleNames_complete (a := ⟨2⟩) (by decide +kernel) hinterned
  rw [hancestors, Except.ok.injEq] at hpath
  subst hpath hvisible
  have hlist : ([⟨2⟩, ⟨1⟩, ⟨0⟩].flatMap shadowed.declarations).map (·.name) = [⟨5⟩, ⟨5⟩, ⟨6⟩] := by
    decide +kernel
  have hfirst : ([⟨2⟩, ⟨1⟩, ⟨0⟩].find? fun id => (shadowed.own? id ⟨5⟩).isSome) = some ⟨1⟩ := by
    decide +kernel
  have hhome := hfirst.symm.trans (hshows.home hsimple)
  obtain ⟨found, rfl, hscope⟩ := Option.map_eq_some_iff.mp hhome.symm
  rw [hlist] at hnames
  exact ⟨hinterned, hnames, ⟨found, hanswer, hscope⟩, by decide +kernel⟩

end Forest
end FlowTyping
