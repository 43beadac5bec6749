import FlowTyping.Proofs.Forest.Outline

/-!
# Numbers of names

Names get their numbers in the order in which they are interned. Two forests that are built alike by
spellings have one outline, whatever else was interned on the way, and what can be asked about names
is answered by the outline. So the answers do not depend on the numbers.
-/
namespace FlowTyping

/-! ## Runs by spellings -/

namespace Outline

def Named (outline : Outline) : Prop :=
  ∀ {i : Nat} {binding}, outline.vars[i]? = some binding → binding.text ≠ none

def path (outline : Outline) (id : ScopeId) : List ScopeId :=
  match outline.scopes[id.raw]? with
  | some place => id :: place.bare.outer
  | none => []

def own? (outline : Outline) (id : ScopeId) (text : String) : Option Binding := do
  let place ← outline.scopes[id.raw]?
  let var ← place.index text
  outline.vars[var.raw]?

variable {outline : Outline}

theorem Named.addScope (hnamed : outline.Named) (parent : ScopeId) (root : NodeId)
    (kind : Scope.Kind) (reserved : List String) (module : Option ModuleId) :
    (outline.addScope parent root kind reserved module).Named := by
  unfold Outline.addScope
  split
  · exact hnamed
  · split <;> exact hnamed

theorem Named.declare (hnamed : outline.Named) (id : ScopeId) (text : String)
    (details : Variable.Details) : (outline.declare id text details).Named := by
  unfold Outline.declare
  split
  · exact hnamed
  · split
    · exact hnamed
    · intro i binding hbinding
      rw [enter, Array.getElem?_push] at hbinding
      split at hbinding
      · rw [← Option.some.inj hbinding]
        exact Option.some_ne_none text
      · exact hnamed hbinding

theorem Named.perform (hnamed : outline.Named) (edit : Edit) : (outline.perform edit).Named := by
  cases edit with
  | intern ref => exact hnamed
  | addBottom root =>
    rw [Outline.perform]
    split <;> exact hnamed
  | addScope parent root kind reserved module => exact hnamed.addScope _ _ _ _ _
  | declare id ref details => exact hnamed.declare _ _ _
  | tryDeclare id ref details => exact hnamed.declare _ _ _
  | setRootType id type => exact hnamed
  | setType id type =>
    intro i binding hbinding
    rw [Outline.perform, Array.getElem?_modify] at hbinding
    split at hbinding
    · obtain ⟨before, hbefore, rfl⟩ := Option.map_eq_some_iff.mp hbinding
      have hspelled : before.text ≠ none := hnamed hbefore
      exact hspelled
    · exact hnamed hbinding

end Outline

namespace Forest
variable {forest other : Forest}

theorem named_outline_iff :
    forest.outline.Named ↔ ∀ found ∈ forest.vars, forest.names.spelling? found.name ≠ none := by
  constructor
  · intro hnamed found hfound
    obtain ⟨i, hi⟩ := Array.mem_iff_getElem?.mp hfound
    have hspelled : (found.outline forest.names).text ≠ none :=
      hnamed (i := i) (by rw [getElem?_outline_vars, hi]; rfl)
    exact hspelled
  · intro hnamed i binding hbinding
    rw [getElem?_outline_vars, Option.map_eq_some_iff] at hbinding
    obtain ⟨found, hfound, rfl⟩ := hbinding
    exact hnamed found (Array.mem_of_getElem? hfound)

theorem Spelt.perform (hspelt : forest.Spelt) {edit : Edit} (hedit : edit.IsSpelled) :
    ((perform edit).run.run forest).2.Spelt where
  built := by
    obtain ⟨root, edits, rfl⟩ := hspelt.built
    exact ⟨root, edits ++ [edit], (after_append _ edits [edit]).symm⟩
  named := by
    rw [← named_outline_iff, hspelt.outline_perform hedit]
    exact Outline.Named.perform (named_outline_iff.mpr hspelt.named) edit

theorem Spelt.after (hspelt : forest.Spelt) {edits : List Edit}
    (hedits : ∀ edit ∈ edits, edit.IsSpelled) :
    (forest.after edits).Spelt ∧ (forest.after edits).outline = forest.outline.after edits := by
  induction edits generalizing forest with
  | nil => exact ⟨hspelt, rfl⟩
  | cons edit edits ih =>
    obtain ⟨hedit, hedits⟩ := List.forall_mem_cons.mp hedits
    obtain ⟨hlater, houtline⟩ := ih (hspelt.perform hedit) hedits
    refine ⟨hlater, houtline.trans ?_⟩
    rw [hspelt.outline_perform hedit]
    rfl

theorem spelt_ofRoot (root : NodeId) : (ofRoot .initial root).Spelt where
  built := ⟨root, [], rfl⟩
  named found hfound := by simp [ofRoot] at hfound

/-! ## Answers -/

/-- Forests that differ at most in the numbers of their names. -/
structure Alike (forest other : Forest) : Prop where
  spelt : forest.Spelt
  spelt' : other.Spelt
  outline : forest.outline = other.outline

def tell (forest : Forest) (answer : Except Fault (Option Variable)) :
    Except Fault (Option Outline.Binding) :=
  Option.map (·.outline forest.names) <$> answer

/-- Two names mean the same in all scopes of two forests, whatever is asked about them. -/
structure SameAnswers (forest other : Forest) (name name' : Name) : Prop where
  ownVariable? : ∀ a,
    forest.tell (forest.ownVariable? a name) = other.tell (other.ownVariable? a name')
  resolve : ∀ a, forest.tell (forest.resolve a name) = other.tell (other.resolve a name')
  declaredType : ∀ a, forest.declaredType a name = other.declaredType a name'
  eventualScope : ∀ a, forest.eventualScope a name = other.eventualScope a name'
  sameBinding : ∀ a b, forest.sameBinding a b name = other.sameBinding a b name'

theorem Alike.size (halike : forest.Alike other) : forest.scopes.size = other.scopes.size := by
  have hsame : forest.outline.scopes.size = other.outline.scopes.size := by rw [halike.outline]
  simpa only [Forest.outline, Array.size_map] using hsame

theorem Alike.scopes (halike : forest.Alike other) (i : Nat) :
    forest.scopes[i]?.map (·.outline forest.names) =
      other.scopes[i]?.map (·.outline other.names) := by
  rw [← getElem?_outline_scopes, halike.outline, getElem?_outline_scopes]

theorem path_outline (forest : Forest) (a : ScopeId) :
    forest.outline.path a = forest.path a := by
  rw [Outline.path, getElem?_outline_scopes, Forest.path]
  cases forest.scopes[a.raw]? <;> rfl

theorem own?_outline (forest : Forest) (id : ScopeId) (text : String) :
    forest.outline.own? id text =
      (forest.ownSpelled? id text).map (·.outline forest.names) := by
  unfold Outline.own? Forest.ownSpelled? Forest.own?
  rw [getElem?_outline_scopes]
  cases forest.scopes[id.raw]? with
  | none => cases forest.names.find? text <;> rfl
  | some scope =>
    show ((forest.names.find? text).bind (scope.index[·]?)).bind _ = _
    cases forest.names.find? text with
    | none => rfl
    | some name =>
      cases hvar : scope.index[name]? with
      | none => simp [hvar]
      | some var => simp [hvar, getElem?_outline_vars]

theorem Alike.path (halike : forest.Alike other) (a : ScopeId) : forest.path a = other.path a := by
  rw [← path_outline, halike.outline, path_outline]

theorem Alike.ownSpelled? (halike : forest.Alike other) (id : ScopeId) (text : String) :
    (forest.ownSpelled? id text).map (·.outline forest.names) =
      (other.ownSpelled? id text).map (·.outline other.names) := by
  rw [← own?_outline, halike.outline, own?_outline]

theorem Alike.home? (halike : forest.Alike other) (a : ScopeId) (root : String) :
    forest.home? a root = other.home? a root := by
  have hbound : ∀ id, (forest.ownSpelled? id root).isSome = (other.ownSpelled? id root).isSome := by
    intro id
    have hsame := congrArg Option.isSome (halike.ownSpelled? id root)
    simpa only [Option.isSome_map] using hsame
  simp only [Forest.home?, halike.path, hbound]

theorem Alike.lookup? (halike : forest.Alike other) (a : ScopeId) (text : String) :
    (forest.lookup? a text).map (·.outline forest.names) =
      (other.lookup? a text).map (·.outline other.names) := by
  simp only [Forest.lookup?, Option.map_or, Option.map_bind, Function.comp_def, halike.home?,
    halike.ownSpelled?]

theorem Alike.scope_map {α : Type} (halike : forest.Alike other) {has has' : Scope → α}
    (hhas : ∀ scope scope', scope.outline forest.names = scope'.outline other.names →
      has scope = has' scope') (id : ScopeId) :
    has <$> forest.scope id = has' <$> other.scope id := by
  have hscopes := halike.scopes id.raw
  unfold Forest.scope
  cases hscope : forest.scopes[id.raw]? with
  | none =>
    rw [hscope, Option.map_none, eq_comm, Option.map_eq_none_iff] at hscopes
    rw [hscopes, halike.size]
    rfl
  | some scope =>
    rw [hscope, Option.map_some, eq_comm, Option.map_eq_some_iff] at hscopes
    obtain ⟨scope', hscope', hsame⟩ := hscopes
    rw [hscope']
    exact congrArg Except.ok (hhas scope scope' hsame.symm)

theorem nearestOn_cons (forest : Forest) (has : Scope → Bool) (id : ScopeId)
    (path : List ScopeId) : forest.nearestOn has (id :: path) =
      (has <$> forest.scope id) >>= fun found =>
        if found = true then .ok (some id) else forest.nearestOn has path := by
  rw [nearestOn]
  cases forest.scope id <;> rfl

theorem Alike.nearest (halike : forest.Alike other) {has has' : Scope → Bool}
    (hhas : ∀ scope scope', scope.outline forest.names = scope'.outline other.names →
      has scope = has' scope') (a : ScopeId) :
    forest.nearest has a = other.nearest has' a := by
  have hpath : ∀ path, forest.nearestOn has path = other.nearestOn has' path := by
    intro path
    induction path with
    | nil => rfl
    | cons id path ih =>
      rw [nearestOn_cons, nearestOn_cons, halike.scope_map hhas id, ih]
  have hancestors : forest.ancestors a = other.ancestors a := by
    have houter :
        (a :: Scope.outer ·) <$> forest.scope a = (a :: Scope.outer ·) <$> other.scope a :=
      halike.scope_map (fun _ _ hsame => congrArg (a :: ·.bare.outer) hsame) a
    simpa only [Forest.ancestors, map_eq_pure_bind] using houter
  simp only [Forest.nearest, hancestors, hpath]

/-- Where a scope is unknown, nothing can be told of a name in it. -/
theorem unknown_of_not_lt {a : ScopeId} (ha : ¬a.raw < forest.scopes.size) (name : Name) :
    forest.ownVariable? a name = .error (.unknownScope a forest.scopes.size) ∧
      forest.resolve a name = .error (.unknownScope a forest.scopes.size) := by
  have hscope : forest.scope a = .error (.unknownScope a forest.scopes.size) := by
    rw [Forest.scope, Array.getElem?_eq_none (by omega)]
  have hown : forest.ownVariable? a name = .error (.unknownScope a forest.scopes.size) := by
    rw [Forest.ownVariable?, hscope]
    rfl
  refine ⟨hown, ?_⟩
  rw [Forest.resolve, hown]
  rfl

theorem declaredType_eq_tell (forest : Forest) (a : ScopeId) (name : Name) :
    forest.declaredType a name =
      (Option.bind · (·.bare.type)) <$> forest.tell (forest.resolve a name) := by
  unfold Forest.declaredType tell
  rcases forest.resolve a name with _ | (_ | _) <;> rfl

theorem declaringScope_eq_tell (forest : Forest) (a : ScopeId) (name : Name) :
    forest.declaringScope a name =
      Option.map (·.bare.scope) <$> forest.tell (forest.resolve a name) := by
  unfold Forest.declaringScope tell
  rcases forest.resolve a name with _ | (_ | _) <;> rfl

theorem Alike.tell_ownVariable? (halike : forest.Alike other) {text : String} {name name' : Name}
    (htext : forest.names.spelling? name = some text)
    (htext' : other.names.spelling? name' = some text) (a : ScopeId) :
    forest.tell (forest.ownVariable? a name) = other.tell (other.ownVariable? a name') := by
  by_cases ha : a.raw < forest.scopes.size
  · have ha' : a.raw < other.scopes.size := halike.size ▸ ha
    rw [halike.spelt.built.sound.ownVariable?_eq ha, halike.spelt'.built.sound.ownVariable?_eq ha',
      ← ownSpelled?_eq_own? halike.spelt.built.names_sound htext,
      ← ownSpelled?_eq_own? halike.spelt'.built.names_sound htext']
    exact congrArg Except.ok (halike.ownSpelled? a text)
  · have ha' : ¬a.raw < other.scopes.size := halike.size ▸ ha
    rw [(unknown_of_not_lt ha name).1, (unknown_of_not_lt ha' name').1, halike.size]
    rfl

theorem Alike.tell_resolve (halike : forest.Alike other) {text : String} {name name' : Name}
    (htext : forest.names.spelling? name = some text)
    (htext' : other.names.spelling? name' = some text) (a : ScopeId) :
    forest.tell (forest.resolve a name) = other.tell (other.resolve a name') := by
  by_cases ha : a.raw < forest.scopes.size
  · have ha' : a.raw < other.scopes.size := halike.size ▸ ha
    have hbuilt := halike.spelt.built
    have hbuilt' := halike.spelt'.built
    rw [hbuilt.sound.resolve_spelled hbuilt.names_sound ha htext,
      hbuilt'.sound.resolve_spelled hbuilt'.names_sound ha' htext']
    exact congrArg Except.ok (halike.lookup? a text)
  · have ha' : ¬a.raw < other.scopes.size := halike.size ▸ ha
    rw [(unknown_of_not_lt ha name).2, (unknown_of_not_lt ha' name').2, halike.size]
    rfl

theorem Alike.sameAnswers (halike : forest.Alike other) {text : String} {name name' : Name}
    (htext : forest.names.spelling? name = some text)
    (htext' : other.names.spelling? name' = some text) :
    forest.SameAnswers other name name' where
  ownVariable? := halike.tell_ownVariable? htext htext'
  resolve := halike.tell_resolve htext htext'
  declaredType a := by
    rw [declaredType_eq_tell, declaredType_eq_tell, halike.tell_resolve htext htext']
  eventualScope a := by
    apply halike.nearest
    intro scope scope' hsame
    have hnames := halike.spelt.built.names_sound
    have hnames' := halike.spelt'.built.names_sound
    rw [Std.ExtTreeMap.contains_eq_isSome_getElem?, Std.ExtTreeMap.contains_eq_isSome_getElem?,
      ← scope.outline_index hnames htext, ← scope.outline_reserved hnames htext, hsame,
      scope'.outline_index hnames' htext', scope'.outline_reserved hnames' htext']
  sameBinding a b := by
    simp only [Forest.sameBinding, declaringScope_eq_tell, halike.tell_resolve htext htext']

/-- Two runs that build alike by spellings give the same answers about all names that both can
spell, whatever either of them interns besides. This holds at all points of the runs where they have
built the same, as what they have done up to there are such runs again. -/
theorem after_sameAnswers (root : NodeId) {edits edits' : List Edit}
    (hedits : ∀ edit ∈ edits, edit.IsSpelled)
    (hbuilds : edits.filter Edit.builds = edits'.filter Edit.builds) {text : String}
    {name name' : Name}
    (htext : ((ofRoot .initial root).after edits).names.spelling? name = some text)
    (htext' : ((ofRoot .initial root).after edits').names.spelling? name' = some text) :
    ((ofRoot .initial root).after edits).SameAnswers ((ofRoot .initial root).after edits')
      name name' := by
  have hedits' : ∀ edit ∈ edits', edit.IsSpelled := by
    intro edit hedit
    cases hbuild : edit.builds with
    | true =>
      have hmem := List.mem_filter.mpr ⟨hedit, hbuild⟩
      rw [← hbuilds] at hmem
      exact hedits edit (List.mem_of_mem_filter hmem)
    | false =>
      cases edit with
      | intern ref => trivial
      | _ => cases hbuild
  obtain ⟨hspelt, houtline⟩ := (spelt_ofRoot root).after hedits
  obtain ⟨hspelt', houtline'⟩ := (spelt_ofRoot root).after hedits'
  refine Alike.sameAnswers ⟨hspelt, hspelt', ?_⟩ htext htext'
  rw [houtline, houtline', ← Outline.after_filter_builds, hbuilds, Outline.after_filter_builds]

def property : List Edit :=
  [.declare ⟨0⟩ (.spelled "a.b") ⟨none, some ⟨2⟩, none, false⟩,
    .addScope ⟨0⟩ ⟨1⟩ .block [.spelled "c"] none]

def rootedProperty : List Edit :=
  [.intern (.spelled "a"), .declare ⟨0⟩ (.spelled "a.b") ⟨none, some ⟨2⟩, none, false⟩,
    .intern (.spelled "d"), .addScope ⟨0⟩ ⟨1⟩ .block [.spelled "c"] none]

/-- It makes no difference whether the root of the property was ever interned. -/
theorem after_sameAnswers_of_interned_root :
    let unrooted := (ofRoot .initial ⟨0⟩).after property
    let rooted := (ofRoot .initial ⟨0⟩).after rootedProperty
    unrooted.names.find? "a" = none ∧ rooted.names.find? "a" = some ⟨5⟩ ∧
      unrooted.names.spelling? ⟨5⟩ = some "a.b" ∧ rooted.names.spelling? ⟨6⟩ = some "a.b" ∧
        unrooted.declaredType ⟨1⟩ ⟨5⟩ = rooted.declaredType ⟨1⟩ ⟨6⟩ ∧
          rooted.declaredType ⟨1⟩ ⟨6⟩ = .ok (some ⟨2⟩) := by
  intro unrooted rooted
  have hedits : ∀ edit ∈ property, edit.IsSpelled := by
    simp [property, Edit.IsSpelled, NameRef.IsSpelled, NameRef.text]
  have hbuilds : property.filter Edit.builds = rootedProperty.filter Edit.builds := by decide
  have htext : unrooted.names.spelling? ⟨5⟩ = some "a.b" := by decide +kernel
  have htext' : rooted.names.spelling? ⟨6⟩ = some "a.b" := by decide +kernel
  have hsame := after_sameAnswers ⟨0⟩ hedits hbuilds htext htext'
  exact ⟨by decide +kernel, by decide +kernel, htext, htext', hsame.declaredType ⟨1⟩,
    by decide +kernel⟩

end Forest
end FlowTyping
