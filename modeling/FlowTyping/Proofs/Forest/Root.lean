import FlowTyping.Proofs.Forest.Meaning
import FlowTyping.Proofs.Name.Table
import Mathlib.Data.List.TakeWhile

/-!
# Roots of qualified names

The root of a qualified name means what it means in the scope that declares the name. So a name that
means the same variable in two scopes has a root that means the same in both. Of a name that means
nothing the root may mean anything.
-/
namespace FlowTyping

theorem isQualified_eq_false_of_rootIdentifier? {spelling root : String}
    (hroot : rootIdentifier? spelling = some root) : isQualified root = false := by
  unfold rootIdentifier? at hroot
  split at hroot
  next =>
    rw [← Option.some.inj hroot, isQualified, String.toList_ofList]
    by_contra hdot
    rw [Bool.not_eq_false, List.contains_iff_mem] at hdot
    simpa using List.mem_takeWhile_imp hdot
  next => cases hroot

namespace Forest

def RootOf (forest : Forest) (name root : Name) : Prop :=
  ∃ spelling start, forest.names.spelling? name = some spelling ∧
    rootIdentifier? spelling = some start ∧ forest.names.find? start = some root

theorem Change.names_sound {before after : Forest} (hchange : Change before after)
    (hsound : before.names.Sound) : after.names.Sound := by
  cases hchange with
  | name ref =>
    cases ref with
    | spelled text => exact hsound.intern text
    | numbered raw => exact hsound
  | _ => exact hsound

theorem Built.names_sound {forest : Forest} (hbuilt : forest.Built) : forest.names.Sound := by
  refine hbuilt.of_changes (fun root => ?_) fun _ _ hchange => hchange.names_sound
  exact NameTable.sound_initial

variable {forest : Forest} {a b : ScopeId} {name root : Name} {found : Variable}

theorem RootOf.interned (hroot : forest.RootOf name root) : forest.Interned name := by
  obtain ⟨spelling, _, hspelling, _⟩ := hroot
  exact ⟨spelling, hspelling⟩

theorem RootOf.simple (hnames : forest.names.Sound) (hroot : forest.RootOf name root) :
    forest.Simple root := by
  obtain ⟨_, start, _, hstart, hfind⟩ := hroot
  exact ⟨start, (hnames start root).mp hfind, isQualified_eq_false_of_rootIdentifier? hstart⟩

/-- A root is simple, so no name is its own root. -/
theorem RootOf.ne (hnames : forest.names.Sound) (hroot : forest.RootOf name root) :
    name ≠ root := by
  rintro rfl
  obtain ⟨text, htext, hplain⟩ := hroot.simple hnames
  obtain ⟨spelling, start, hspelling, hstart, _⟩ := hroot
  obtain rfl := Option.some.inj (htext.symm.trans hspelling)
  rw [rootIdentifier?_eq_none_iff.mpr hplain] at hstart
  cases hstart

/-- A simple name means its innermost declaration. -/
theorem Sound.meaning?_simple (hsound : forest.Sound) (ha : a.raw < forest.scopes.size)
    (hsimple : forest.Simple name) :
    forest.meaning? a name = (forest.path a).findSome? (forest.own? · name) := by
  rw [meaning?, hsound.resolve_simple ha hsimple]

theorem Sound.own?_eq_none_of_meaning? (hsound : forest.Sound) (hsimple : forest.Simple name)
    (hb : b ∈ forest.path a) (hnone : forest.meaning? a name = none) :
    forest.own? b name = none := by
  rw [hsound.meaning?_simple (lt_size_of_mem_path hb) hsimple] at hnone
  exact List.findSome?_eq_none_iff.mp hnone b hb

theorem Sound.meaning?_eq_of_own? (hsound : forest.Sound) (hown : forest.own? a name = some found) :
    forest.meaning? a name = some found := by
  have hlt := (hsound.own?_facts hown).2.2
  rw [meaning?, resolve_of_own ((hsound.ownVariable?_eq hlt name).trans (congrArg _ hown))]

private theorem Sound.own_or_rooted (hsound : forest.Sound) (hnames : forest.names.Sound)
    (hroot : forest.RootOf name root) (hfound : forest.resolve a name = .ok (some found)) :
    found.scope = a ∨ forest.meaning? a root = forest.own? found.scope root := by
  have ha := lt_size_of_mem_path (hsound.scope_mem_path hfound)
  have hmeaning := hsound.meaning?_simple ha (hroot.simple hnames)
  obtain ⟨spelling, start, hspelling, hstart, hfind⟩ := hroot
  have hown : ∀ id, forest.ownSpelled? id start = forest.own? id root := by
    intro id
    rw [ownSpelled?, hfind, Option.bind_some]
  rw [hsound.resolve_qualified ha hspelling hstart, Except.ok.injEq] at hfound
  rcases Option.or_eq_some_iff.mp hfound with hself | ⟨_, hrooted⟩
  · exact .inl (hsound.own?_facts hself).1
  · obtain ⟨home, hhome, hdeclared⟩ := Option.bind_eq_some_iff.mp hrooted
    have hsearch := hsound.findSome?_eq_bind_home? (a := a) start
    simp only [hown, hhome, Option.bind_some] at hsearch
    rw [(hsound.own?_facts hdeclared).1, hmeaning, hsearch]
    exact .inr rfl

/-- The root of a qualified name means what it means in the scope that declares the name. -/
theorem Sound.root_meaning?_of_resolve (hsound : forest.Sound) (hnames : forest.names.Sound)
    (hroot : forest.RootOf name root) (hfound : forest.resolve a name = .ok (some found)) :
    forest.meaning? a root = forest.meaning? found.scope root := by
  have hmem := hsound.scope_mem_path hfound
  rcases hsound.own_or_rooted hnames hroot hfound with hscope | hmeaning
  · rw [hscope]
  · cases hown : forest.own? found.scope root with
    | some var => rw [hmeaning, hown, hsound.meaning?_eq_of_own? hown]
    | none =>
      have hsimple := hroot.simple hnames
      rw [hown] at hmeaning
      rw [hmeaning, hsound.meaning?_simple (hsound.lt_size_of_path a _ hmem) hsimple, eq_comm,
        List.findSome?_eq_none_iff]
      intro outer houter
      exact hsound.own?_eq_none_of_meaning? hsimple (hsound.mem_path_trans hmem houter) hmeaning

/-- Where the root of a qualified name means something else, so does the name, unless it means nothing
in either scope. -/
theorem Sound.meaning?_eq_none_of_root_ne (hsound : forest.Sound) (hnames : forest.names.Sound)
    (ha : a.raw < forest.scopes.size) (hb : b.raw < forest.scopes.size)
    (hroot : forest.RootOf name root)
    (hdiffers : forest.meaning? a root ≠ forest.meaning? b root)
    (hsame : forest.meaning? a name = forest.meaning? b name) : forest.meaning? b name = none := by
  have hfrom := hsound.resolve_eq ha hroot.interned
  have hto := hsound.resolve_eq hb hroot.interned
  rw [hsame] at hfrom
  cases hmeaning : forest.meaning? b name with
  | none => rfl
  | some found =>
    rw [hmeaning] at hfrom hto
    apply absurd _ hdiffers
    rw [hsound.root_meaning?_of_resolve hnames hroot hfrom,
      hsound.root_meaning?_of_resolve hnames hroot hto]

end Forest
end FlowTyping
