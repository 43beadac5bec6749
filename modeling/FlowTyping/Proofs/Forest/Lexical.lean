import FlowTyping.Proofs.Forest.WellFormed

/-!
# The lexical rule

A name is looked for by its root, and a simple name is its own root: it belongs to the innermost
scope that declares the root, and where none does to the outermost scope. Only what a scope declares
itself is found there first. So what a name means can be told from the spellings that the scopes of
a path declare.
-/
namespace FlowTyping

/-- The spelling by which the scope of a name is found. -/
def rootText (text : String) : String := (rootIdentifier? text).getD text

theorem rootText_of_simple {text : String} (hplain : isQualified text = false) :
    rootText text = text := by
  rw [rootText, rootIdentifier?_eq_none_iff.mpr hplain, Option.getD_none]

theorem rootText_of_qualified {text root : String} (hroot : rootIdentifier? text = some root) :
    rootText text = root := by
  rw [rootText, hroot, Option.getD_some]

private theorem find?_eq_some_iff_takeWhile {α : Type} [DecidableEq α] {test : α → Bool}
    {values : List α} {target : α} :
    values.find? test = some target ↔ target ∈ values ∧ test target = true ∧
      ∀ value ∈ values.takeWhile (· ≠ target), test value = false := by
  induction values with
  | nil => simp
  | cons value values ih =>
    by_cases hsame : value = target
    · subst hsame
      cases htest : test value with
      | true => simp [htest]
      | false =>
        rw [List.find?_cons_of_neg (by simp [htest]), ih]
        simp [htest]
    · have hother : target ≠ value := fun h => hsame h.symm
      cases htest : test value with
      | true => simp [htest, hsame]
      | false =>
        rw [List.find?_cons_of_neg (by simp [htest]), ih]
        simp [htest, hsame, hother]

namespace Forest

def lookup? (forest : Forest) (a : ScopeId) (text : String) : Option Variable :=
  (forest.ownSpelled? a text).or
    ((forest.home? a (rootText text)).bind (forest.ownSpelled? · text))

variable {forest : Forest} {a target : ScopeId} {name : Name} {text : String}

theorem ownSpelled?_eq_own? (hnames : forest.names.Sound)
    (htext : forest.names.spelling? name = some text) (id : ScopeId) :
    forest.ownSpelled? id text = forest.own? id name := by
  rw [ownSpelled?, (hnames text name).mpr htext]
  rfl

/-- What a name means is told by its spelling. -/
theorem Sound.resolve_spelled (hsound : forest.Sound) (hnames : forest.names.Sound)
    (ha : a.raw < forest.scopes.size) (htext : forest.names.spelling? name = some text) :
    forest.resolve a name = .ok (forest.lookup? a text) := by
  have hown := ownSpelled?_eq_own? hnames htext
  cases hroot : rootIdentifier? text with
  | some root =>
    rw [hsound.resolve_qualified ha htext hroot, lookup?, rootText_of_qualified hroot]
    simp only [hown]
  | none =>
    have hplain := rootIdentifier?_eq_none_iff.mp hroot
    rw [hsound.resolve_simple ha ⟨text, htext, hplain⟩, lookup?, rootText_of_simple hplain,
      ← hsound.findSome?_eq_bind_home?]
    simp only [hown]
    rw [path_eq_cons (Array.getElem?_eq_getElem ha), List.findSome?_cons]
    cases forest.own? a name <;> rfl

/-! ## Declarations along a path -/

def Binds (forest : Forest) (id : ScopeId) (text : String) (found : Variable) : Prop :=
  found ∈ forest.vars ∧ found.scope = id ∧ forest.names.spelling? found.name = some text

def Bound (forest : Forest) (id : ScopeId) (text : String) : Prop :=
  ∃ found, forest.Binds id text found

/-- The scopes from one scope outwards up to another, without the other. -/
def upTo (forest : Forest) (a target : ScopeId) : List ScopeId :=
  (forest.path a).takeWhile (· ≠ target)

/-- Where a name with a spelling is to be declared for a scope to mean the declaration by it. -/
inductive Lexical (forest : Forest) (a : ScopeId) (text : String) (target : ScopeId) : Prop where
  | own (hself : target = a)
  | simple (hplain : isQualified text = false)
      (hclear : ∀ id ∈ forest.upTo a target, ¬forest.Bound id text)
  | rooted {root : String} (hroot : rootIdentifier? text = some root) (hown : ¬forest.Bound a text)
      (hhome : forest.Bound target root)
      (hclear : ∀ id ∈ forest.upTo a target, ¬forest.Bound id root)
  | unrooted {root : String} (hroot : rootIdentifier? text = some root)
      (hown : ¬forest.Bound a text) (htarget : target = Forest.global)
      (hclear : ∀ id ∈ forest.path a, ¬forest.Bound id root)

/-- A scope finds in its index what it declares. -/
theorem Built.own?_eq_some_iff (hbuilt : forest.Built) {id : ScopeId} {found : Variable} :
    forest.own? id name = some found ↔
      found ∈ forest.vars ∧ found.scope = id ∧ found.name = name := by
  constructor
  · intro hown
    obtain ⟨hscope, hname, _⟩ := hbuilt.sound.own?_facts hown
    exact ⟨mem_vars_of_own? hown, hscope, hname⟩
  · rintro ⟨hmem, rfl, rfl⟩
    obtain ⟨i, hi⟩ := Array.mem_iff_getElem?.mp hmem
    have hplace : forest.vars[(⟨i⟩ : VarId).raw]? = some found := hi
    obtain ⟨hid, scope, hscope, hentry⟩ := hbuilt.whole.vars hplace
    obtain ⟨found', hfound', hindex⟩ :=
      hbuilt.listed.indexed hscope (Array.mem_of_getElem? hentry)
    obtain rfl := Option.some.inj (hi.symm.trans hfound')
    simp [own?, hscope, hindex, hfound']

theorem Built.ownSpelled?_eq_some_iff (hbuilt : forest.Built) {id : ScopeId} {found : Variable} :
    forest.ownSpelled? id text = some found ↔ forest.Binds id text found := by
  have hnames := hbuilt.names_sound
  constructor
  · intro hfound
    obtain ⟨name, hname, hown⟩ := Option.bind_eq_some_iff.mp hfound
    obtain ⟨hmem, hscope, rfl⟩ := hbuilt.own?_eq_some_iff.mp hown
    exact ⟨hmem, hscope, (hnames text _).mp hname⟩
  · rintro ⟨hmem, hscope, htext⟩
    rw [ownSpelled?_eq_own? hnames htext]
    exact hbuilt.own?_eq_some_iff.mpr ⟨hmem, hscope, rfl⟩

theorem Built.isSome_ownSpelled?_iff (hbuilt : forest.Built) {id : ScopeId} :
    (forest.ownSpelled? id text).isSome = true ↔ forest.Bound id text := by
  simp only [Option.isSome_iff_exists, hbuilt.ownSpelled?_eq_some_iff, Bound]

theorem ne_of_mem_upTo {id : ScopeId} (hmem : id ∈ forest.upTo a target) : id ≠ target := by
  simpa using List.mem_takeWhile_imp hmem

/-- A path goes up to each of its scopes and on from there. -/
theorem upTo_append (hmem : target ∈ forest.path a) :
    ∃ rest, forest.path a = forest.upTo a target ++ target :: rest := by
  have hsplit := List.takeWhile_append_dropWhile (p := (· ≠ target)) (l := forest.path a)
  cases hrest : (forest.path a).dropWhile (· ≠ target) with
  | nil =>
    rw [hrest, List.append_nil] at hsplit
    rw [← hsplit] at hmem
    exact absurd rfl (ne_of_mem_upTo hmem)
  | cons first rest =>
    have hstop := List.head?_dropWhile_not (· ≠ target) (forest.path a)
    rw [hrest] at hstop
    have hfirst : first = target := by simpa using hstop
    rw [hrest, hfirst] at hsplit
    exact ⟨rest, hsplit.symm⟩

/-- Scopes further in come first on a path. -/
theorem Sound.mem_upTo (hsound : forest.Sound) {inner : ScopeId} (hinner : inner ∈ forest.path a)
    (htarget : target ∈ forest.path inner) (hne : inner ≠ target) :
    inner ∈ forest.upTo a target := by
  obtain ⟨rest, hsplit⟩ := upTo_append (hsound.mem_path_trans hinner htarget)
  have hdecreasing := hsound.path_decreasing a
  rw [hsplit] at hinner hdecreasing
  apply (List.mem_append.mp hinner).resolve_right
  intro hlate
  have hlt := List.rel_of_pairwise_cons (List.pairwise_append.mp hdecreasing).2.1
    ((List.mem_cons.mp hlate).resolve_left hne)
  have hle := (hsound.mem_path_facts htarget).2.1
  omega

theorem Built.home?_eq_some_iff (hbuilt : forest.Built) {root : String} :
    forest.home? a root = some target ↔ target ∈ forest.path a ∧
      ((forest.Bound target root ∧ ∀ id ∈ forest.upTo a target, ¬forest.Bound id root) ∨
        ((∀ id ∈ forest.path a, ¬forest.Bound id root) ∧
          (forest.path a).getLast? = some target)) := by
  unfold home?
  simp only [Option.or_eq_some_iff, find?_eq_some_iff_takeWhile, List.find?_eq_none,
    hbuilt.isSome_ownSpelled?_iff, ← Bool.not_eq_true, upTo]
  constructor
  · rintro (⟨hmem, hbound, hclear⟩ | ⟨hclear, hlast⟩)
    · exact ⟨hmem, .inl ⟨hbound, hclear⟩⟩
    · exact ⟨List.mem_of_getLast? hlast, .inr ⟨hclear, hlast⟩⟩
  · rintro ⟨hmem, ⟨hbound, hclear⟩ | ⟨hclear, hlast⟩⟩
    · exact .inl ⟨hmem, hbound, hclear⟩
    · exact .inr ⟨hclear, hlast⟩

theorem Built.lexical_of_lookup? (hbuilt : forest.Built) {found : Variable}
    (hfound : forest.lookup? a text = some found) :
    found.scope ∈ forest.path a ∧ forest.Binds found.scope text found ∧
      forest.Lexical a text found.scope := by
  rcases Option.or_eq_some_iff.mp hfound with hown | ⟨hnone, hfound⟩
  · have hbinds := hbuilt.ownSpelled?_eq_some_iff.mp hown
    obtain ⟨name, _, hdeclared⟩ := Option.bind_eq_some_iff.mp hown
    rw [hbinds.2.1]
    exact ⟨mem_path_self (hbuilt.sound.own?_facts hdeclared).2.2, hbinds, .own rfl⟩
  · obtain ⟨target, hhome, hown⟩ := Option.bind_eq_some_iff.mp hfound
    have hbinds := hbuilt.ownSpelled?_eq_some_iff.mp hown
    have hself : ¬forest.Bound a text := by
      rw [← hbuilt.isSome_ownSpelled?_iff, hnone]
      simp
    obtain ⟨hmem, hplace⟩ := hbuilt.home?_eq_some_iff.mp hhome
    rw [hbinds.2.1]
    refine ⟨hmem, hbinds, ?_⟩
    cases hroot : rootIdentifier? text with
    | none =>
      have hplain := rootIdentifier?_eq_none_iff.mp hroot
      rw [rootText_of_simple hplain] at hplace
      rcases hplace with ⟨_, hclear⟩ | ⟨hclear, _⟩
      · exact .simple hplain hclear
      · exact absurd ⟨found, hbinds⟩ (hclear target hmem)
    | some root =>
      rw [rootText_of_qualified hroot] at hplace
      rcases hplace with ⟨hbound, hclear⟩ | ⟨hclear, hlast⟩
      · exact .rooted hroot hself hbound hclear
      · rcases hbuilt.sound.getLast?_path (lt_size_of_mem_path hmem) with hglobal | ⟨hpath, _⟩
        · exact .unrooted hroot hself (Option.some.inj (hlast.symm.trans hglobal)) hclear
        · rw [hpath, List.mem_singleton] at hmem
          exact .own hmem

theorem Built.lookup?_of_lexical (hbuilt : forest.Built) {found : Variable}
    (hmem : target ∈ forest.path a) (hbinds : forest.Binds target text found)
    (hlexical : forest.Lexical a text target) : forest.lookup? a text = some found := by
  have hown := hbuilt.ownSpelled?_eq_some_iff.mpr hbinds
  have hhome : target ≠ a → ¬forest.Bound a text ∧
      forest.home? a (rootText text) = some target := by
    intro hne
    have ha := lt_size_of_mem_path hmem
    rw [hbuilt.home?_eq_some_iff]
    cases hlexical with
    | own hself => exact absurd hself hne
    | simple hplain hclear =>
      rw [rootText_of_simple hplain]
      have hfirst := hbuilt.sound.mem_upTo (mem_path_self ha) hmem hne.symm
      exact ⟨hclear a hfirst, hmem, .inl ⟨⟨found, hbinds⟩, hclear⟩⟩
    | rooted hroot hself hbound hclear =>
      rw [rootText_of_qualified hroot]
      exact ⟨hself, hmem, .inl ⟨hbound, hclear⟩⟩
    | unrooted hroot hself htarget hclear =>
      subst htarget
      rw [rootText_of_qualified hroot]
      exact ⟨hself, hmem, .inr ⟨hclear, hbuilt.sound.getLast?_path_of_global_mem hmem⟩⟩
  by_cases hself : target = a
  · rw [lookup?, ← hself, hown, Option.some_or]
  · obtain ⟨hfree, hhome⟩ := hhome hself
    rw [← hbuilt.isSome_ownSpelled?_iff, Option.not_isSome_iff_eq_none] at hfree
    rw [lookup?, hfree, Option.none_or, hhome, Option.bind_some, hown]

/-- A declaration of the root further in hides the qualified names of outer scopes. -/
theorem Lexical.not_hidden (hsound : forest.Sound) (hlexical : forest.Lexical a text target)
    {root : String} {inner : ScopeId} (hroot : rootIdentifier? text = some root)
    (hinner : inner ∈ forest.path a) (hbound : forest.Bound inner root)
    (htarget : target ∈ forest.path inner) : target = inner := by
  by_contra hne
  have hupTo := hsound.mem_upTo hinner htarget (Ne.symm hne)
  cases hlexical with
  | own hself => exact hne (hsound.mem_path_antisymm htarget (hself ▸ hinner))
  | simple hplain =>
    rw [rootIdentifier?_eq_none_iff.mpr hplain] at hroot
    cases hroot
  | rooted hroot' _ _ hclear =>
    obtain rfl := Option.some.inj (hroot.symm.trans hroot')
    exact hclear inner hupTo hbound
  | unrooted hroot' _ _ hclear =>
    obtain rfl := Option.some.inj (hroot.symm.trans hroot')
    exact hclear inner hinner hbound

/-- A name means exactly the variable that the lexical rule picks, and nothing where it picks none.
In particular the declaration of a root hides all outer qualified names with the root. -/
theorem Built.resolve_lexical (hbuilt : forest.Built) (ha : a.raw < forest.scopes.size)
    (htext : forest.names.spelling? name = some text) :
    ∃ answer, forest.resolve a name = .ok answer ∧
      (∀ found, answer = some found ↔ found ∈ forest.vars ∧ found.name = name ∧
        found.scope ∈ forest.path a ∧ forest.Lexical a text found.scope) ∧
      ∀ root inner found, rootIdentifier? text = some root → inner ∈ forest.path a →
        forest.Bound inner root → found.scope ∈ forest.path inner → found.scope ≠ inner →
          answer ≠ some found := by
  have hsound := hbuilt.sound
  have hnames := hbuilt.names_sound
  refine ⟨forest.lookup? a text, hsound.resolve_spelled hnames ha htext, fun found => ?_, ?_⟩
  · constructor
    · intro hfound
      obtain ⟨hmem, ⟨hvar, _, hspelled⟩, hlexical⟩ := hbuilt.lexical_of_lookup? hfound
      rw [← hnames, (hnames text name).mpr htext] at hspelled
      exact ⟨hvar, (Option.some.inj hspelled).symm, hmem, hlexical⟩
    · rintro ⟨hvar, rfl, hmem, hlexical⟩
      exact hbuilt.lookup?_of_lexical hmem ⟨hvar, rfl, htext⟩ hlexical
  · intro root inner found hroot hinner hbound htarget hne hfound
    obtain ⟨_, _, hlexical⟩ := hbuilt.lexical_of_lookup? hfound
    exact hne (hlexical.not_hidden hsound hroot hinner hbound htarget)

/-- A global `a` with a property, a block with an `a` of its own, and a block inside that one. -/
def shadowed : Forest :=
  (ofRoot .initial ⟨0⟩).after
    [.declare ⟨0⟩ (.spelled "a") ⟨none, none, none, false⟩,
      .declare ⟨0⟩ (.spelled "a.b") ⟨none, none, none, false⟩,
      .addScope ⟨0⟩ ⟨1⟩ .block [] none, .declare ⟨1⟩ (.spelled "a") ⟨none, none, none, false⟩,
      .addScope ⟨1⟩ ⟨2⟩ .block [] none]

/-- The property of the global `a` means nothing where the inner `a` is seen, and itself outside. -/
theorem resolve_lexical_of_shadowed :
    shadowed.names.spelling? ⟨6⟩ = some "a.b" ∧ shadowed.resolve ⟨2⟩ ⟨6⟩ = .ok none ∧
      ∃ found, shadowed.resolve ⟨0⟩ ⟨6⟩ = .ok (some found) ∧ found.id = ⟨1⟩ := by
  have hbuilt : shadowed.Built := ⟨⟨0⟩, _, rfl⟩
  have htext : shadowed.names.spelling? ⟨6⟩ = some "a.b" := by decide +kernel
  have hglobal : ∀ found ∈ shadowed.vars, found.name = ⟨6⟩ → found.scope = ⟨0⟩ := by decide +kernel
  obtain ⟨inner, hinner, hinnermost, hhidden⟩ :=
    hbuilt.resolve_lexical (a := ⟨2⟩) (by decide +kernel) htext
  obtain ⟨outer, houter, houtermost, _⟩ :=
    hbuilt.resolve_lexical (a := ⟨0⟩) (by decide +kernel) htext
  refine ⟨htext, ?_, ?_⟩
  · cases inner with
    | none => exact hinner
    | some found =>
      have hbound : ∃ found ∈ shadowed.vars, found.scope = ⟨1⟩ ∧
          shadowed.names.spelling? found.name = some "a" := by decide +kernel
      obtain ⟨hfound, hname, _⟩ := (hinnermost found).mp rfl
      have hscope := hglobal found hfound hname
      exact absurd rfl (hhidden "a" ⟨1⟩ found (by decide +kernel) (by decide +kernel) hbound
        (by rw [hscope]; decide +kernel) (by rw [hscope]; decide +kernel))
  · obtain ⟨found, hfound, hname, hid⟩ :
        ∃ found ∈ shadowed.vars, found.name = ⟨6⟩ ∧ found.id = ⟨1⟩ := by decide +kernel
    have hscope := hglobal found hfound hname
    have hself := (houtermost found).mpr
      ⟨hfound, hname, by rw [hscope]; decide +kernel, .own hscope⟩
    exact ⟨found, by rw [houter, hself], hid⟩

end Forest
end FlowTyping
