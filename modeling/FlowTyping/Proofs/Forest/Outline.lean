import FlowTyping.Proofs.Forest.Lexical

/-!
# Outlines

The outline of a forest has the spelling of a name wherever the forest has its number. Where a
forest is built by spellings alone, every edit does to the outline what it does to the forest, so
the outline shows what was declared where, and nothing of the order in which names were interned.
-/
namespace FlowTyping

/-- A variable with the spelling of its name in the place of the name. -/
@[ext] structure Outline.Binding where
  bare : Variable
  text : Option String

/-- A scope that finds its variables and its reserved names by spelling. -/
@[ext] structure Outline.Place where
  bare : Scope
  index : String → Option VarId
  reserved : String → Bool

@[ext] structure Outline where
  scopes : Array Outline.Place
  vars : Array Outline.Binding

def Variable.outline (names : NameTable) (found : Variable) : Outline.Binding :=
  ⟨{ found with name := .empty }, names.spelling? found.name⟩

def Scope.outline (names : NameTable) (scope : Scope) : Outline.Place where
  bare := { scope with index := ∅, reserved := ∅ }
  index text := (names.find? text).bind (scope.index[·]?)
  reserved text := (names.find? text).any scope.reserved.contains

def Forest.outline (forest : Forest) : Outline where
  scopes := forest.scopes.map (·.outline forest.names)
  vars := forest.vars.map (·.outline forest.names)

namespace Edit

def IsSpelled : Edit → Prop
  | .addScope _ _ _ reserved _ => ∀ ref ∈ reserved, ref.IsSpelled
  | .declare _ ref _ => ref.IsSpelled
  | .tryDeclare _ ref _ => ref.IsSpelled
  | _ => True

def builds : Edit → Bool
  | .intern _ => false
  | _ => true

end Edit

namespace Outline

def push (outline : Outline) (added : Scope) (reserved : List String) : Outline where
  scopes := outline.scopes.push ⟨added, fun _ => none, fun text => decide (text ∈ reserved)⟩
  vars := outline.vars

def addScope (outline : Outline) (parent : ScopeId) (root : NodeId) (kind : Scope.Kind)
    (reserved : List String) (module : Option ModuleId) : Outline :=
  match outline.scopes[parent.raw]? with
  | none => outline
  | some around =>
    if kind.isRoot = true ∨ around.bare.kind = .bottom ∨ around.bare.root = root ∨
        (∃ text ∈ reserved, isQualified text = true) ∨ Handle.capacity ≤ outline.scopes.size then
      outline
    else outline.push (.unbuilt (parent :: around.bare.outer) kind root ∅ module) reserved

def Place.enter (within : Place) (text : String) (var : VarId) : Place where
  bare := { within.bare with declared := within.bare.declared.push var }
  index other := if text = other then some var else within.index other
  reserved other := decide (text ≠ other) && within.reserved other

def enter (outline : Outline) (id : ScopeId) (text : String) (details : Variable.Details)
    (ordinal : Nat) : Outline where
  scopes := outline.scopes.modify id.raw (·.enter text ⟨outline.vars.size⟩)
  vars := outline.vars.push ⟨{ details with
    id := ⟨outline.vars.size⟩, name := .empty, scope := id, ordinal := ordinal }, some text⟩

def declare (outline : Outline) (id : ScopeId) (text : String) (details : Variable.Details) :
    Outline :=
  match outline.scopes[id.raw]? with
  | none => outline
  | some within =>
    if within.bare.kind = .bottom ∨ text = "" ∨ (within.index text).isSome = true ∨
        Handle.capacity ≤ outline.vars.size ∨ Handle.capacity ≤ within.bare.declared.size then
      outline
    else outline.enter id text details within.bare.declared.size

/-- What an edit does to an outline. Interning does nothing. -/
def perform (outline : Outline) : Edit → Outline
  | .intern _ => outline
  | .addBottom root =>
    if outline.scopes.size < Handle.capacity then
      outline.push (.unbuilt [] .bottom root ∅ none) []
    else outline
  | .addScope parent root kind reserved module =>
    outline.addScope parent root kind (reserved.map (·.text)) module
  | .declare id ref details => outline.declare id ref.text details
  | .tryDeclare id ref details => outline.declare id ref.text details
  | .setRootType id type =>
    { outline with scopes := outline.scopes.modify id.raw fun within =>
        { within with bare := { within.bare with rootType := type } } }
  | .setType id type =>
    { outline with vars := outline.vars.modify id.raw fun found =>
        { found with bare := { found.bare with type := type } } }

def after (outline : Outline) (edits : List Edit) : Outline := edits.foldl perform outline

/-- Only the edits that build make a difference to an outline. -/
theorem after_filter_builds (outline : Outline) (edits : List Edit) :
    outline.after (edits.filter Edit.builds) = outline.after edits := by
  induction edits generalizing outline with
  | nil => rfl
  | cons edit edits ih =>
    cases edit with
    | intern ref => exact ih outline
    | _ => exact ih _

end Outline

theorem Scope.outline_index {names : NameTable} (hnames : names.Sound) {name : Name}
    {text : String} (htext : names.spelling? name = some text) (scope : Scope) :
    (scope.outline names).index text = scope.index[name]? := by
  show (names.find? text).bind _ = _
  rw [(hnames text name).mpr htext, Option.bind_some]

theorem Scope.outline_reserved {names : NameTable} (hnames : names.Sound) {name : Name}
    {text : String} (htext : names.spelling? name = some text) (scope : Scope) :
    (scope.outline names).reserved text = scope.reserved.contains name := by
  show (names.find? text).any _ = _
  rw [(hnames text name).mpr htext, Option.any_some]

theorem Scope.outline_of_grown {names later : NameTable} (hgrown : names.Grown later)
    (hnames : names.Sound) {scope : Scope}
    (hindex : ∀ name ∈ scope.index, names.spelling? name ≠ none)
    (hreserved : ∀ name ∈ scope.reserved, names.spelling? name ≠ none) :
    scope.outline later = scope.outline names := by
  have hbound : ∀ name, names.spelling? name = none → scope.index[name]? = none := by
    intro name hname
    exact Std.ExtTreeMap.getElem?_eq_none fun hmem => hindex name hmem hname
  have hfree : ∀ name, names.spelling? name = none → scope.reserved.contains name = false := by
    intro name hname
    rw [← Bool.not_eq_true]
    exact fun hmem => hreserved name hmem hname
  apply Outline.Place.ext
  · rfl
  · funext text
    exact hgrown.bind_find? hnames hbound text
  · funext text
    rcases hgrown.find?_cases hnames text with hsame | ⟨hnone, hnew⟩
    · simp only [Scope.outline, hsame]
    · simp only [Scope.outline, hnone]
      cases hfind : later.find? text with
      | none => rfl
      | some name => exact hfree name (hnew name hfind)

namespace Forest
variable {forest : Forest}

/-- A forest that can be built by spelling every name that it declares. -/
structure Spelt (forest : Forest) : Prop where
  built : forest.Built
  named : ∀ found ∈ forest.vars, forest.names.spelling? found.name ≠ none

theorem exists_id_of_mem {scope : Scope} (hscope : scope ∈ forest.scopes) :
    ∃ id : ScopeId, forest.scopes[id.raw]? = some scope := by
  obtain ⟨i, hi⟩ := Array.mem_iff_getElem?.mp hscope
  exact ⟨⟨i⟩, hi⟩

theorem Spelt.indexed (hspelt : forest.Spelt) {scope : Scope} (hscope : scope ∈ forest.scopes) :
    ∀ name ∈ scope.index, forest.names.spelling? name ≠ none := by
  intro name hname
  obtain ⟨id, hscope⟩ := exists_id_of_mem hscope
  rw [Std.ExtTreeMap.mem_iff_isSome_getElem?, Option.isSome_iff_exists] at hname
  obtain ⟨var, hvar⟩ := hname
  obtain ⟨found, hfound, _, rfl⟩ := hspelt.built.sound.declared hscope hvar
  exact hspelt.named found (Array.mem_of_getElem? hfound)

theorem Spelt.reserved (hspelt : forest.Spelt) {scope : Scope} (hscope : scope ∈ forest.scopes) :
    ∀ name ∈ scope.reserved, forest.names.spelling? name ≠ none := by
  intro name hname
  obtain ⟨id, hscope⟩ := exists_id_of_mem hscope
  obtain ⟨⟨text, htext, _⟩, _⟩ := (hspelt.built.whole.scopes hscope).reserved hname
  simp [htext]

/-- Interning does not show in the outline. -/
theorem Spelt.outline_of_grown (hspelt : forest.Spelt) {later : NameTable}
    (hgrown : forest.names.Grown later) :
    ({ forest with names := later } : Forest).outline = forest.outline := by
  have hnames := hspelt.built.names_sound
  apply Outline.ext
  · apply Array.map_congr_left
    intro scope hscope
    exact Scope.outline_of_grown hgrown hnames (hspelt.indexed hscope) (hspelt.reserved hscope)
  · apply Array.map_congr_left
    intro found hfound
    obtain ⟨text, htext⟩ := Option.ne_none_iff_exists'.mp (hspelt.named found hfound)
    rw [Variable.outline, Variable.outline, htext, hgrown.kept htext]

theorem getElem?_outline_scopes (forest : Forest) (i : Nat) :
    forest.outline.scopes[i]? = forest.scopes[i]?.map (·.outline forest.names) :=
  Array.getElem?_map

theorem getElem?_outline_vars (forest : Forest) (i : Nat) :
    forest.outline.vars[i]? = forest.vars[i]?.map (·.outline forest.names) :=
  Array.getElem?_map

/-! ## Edits -/

private theorem map_modify {α β : Type} {change : α → α} {change' : β → β} {f : α → β}
    (hchange : ∀ value, f (change value) = change' (f value)) (values : Array α) (i : Nat) :
    (values.modify i change).map f = (values.map f).modify i change' := by
  apply Array.ext_getElem?
  intro j
  rw [Array.getElem?_map, Array.getElem?_modify, Array.getElem?_modify, Array.getElem?_map]
  split
  · cases values[j]? with
    | none => rfl
    | some value => exact congrArg some (hchange value)
  · rfl

theorem mem_iff_of_map_spelling? {table : NameTable} {names : List Name} {texts : List String}
    (htexts : names.map table.spelling? = texts.map some) {text : String} :
    text ∈ texts ↔ ∃ name ∈ names, table.spelling? name = some text := by
  have hin : some text ∈ texts.map some ↔ text ∈ texts := by simp
  rw [← hin, ← htexts, List.mem_map]

theorem outline_push {outer : List ScopeId} {kind : Scope.Kind} {root : NodeId}
    {names : List Name} {module : Option ModuleId} {texts : List String}
    (hnames : forest.names.Sound) (htexts : names.map forest.names.spelling? = texts.map some) :
    (forest.push (.unbuilt outer kind root (Std.ExtTreeSet.ofList names) module)).2.outline =
      forest.outline.push (.unbuilt outer kind root ∅ module) texts := by
  have hplace : (Scope.unbuilt outer kind root (Std.ExtTreeSet.ofList names) module).outline
      forest.names = ⟨.unbuilt outer kind root ∅ module, fun _ => none,
        fun text => decide (text ∈ texts)⟩ := by
    apply Outline.Place.ext
    · rfl
    · funext text
      simp [Scope.outline, Scope.unbuilt]
    · funext text
      rw [Bool.eq_iff_iff, decide_eq_true_iff, mem_iff_of_map_spelling? htexts]
      simp [Scope.outline, Scope.unbuilt, Option.any_eq_true, and_comm, hnames text]
  apply Outline.ext
  · exact Array.map_push.trans (congrArg _ hplace)
  · rfl

theorem outline_entered {names : NameTable} (hnames : names.Sound) {name : Name} {text : String}
    (htext : names.spelling? name = some text) (within : Scope) (var : VarId) :
    ({ within with
      declared := within.declared.push var
      index := within.index.insert name var
      reserved := within.reserved.erase name } : Scope).outline names =
      (within.outline names).enter text var := by
  have hsame : ∀ {other found}, names.find? other = some found → (name = found ↔ text = other) :=
    fun hfound => hnames.eq_iff htext ((hnames _ _).mp hfound)
  apply Outline.Place.ext
  · rfl
  · funext other
    simp only [Scope.outline, Outline.Place.enter]
    cases hfind : names.find? other with
    | none =>
      have hne : text ≠ other := by
        rintro rfl
        simp [(hnames text name).mpr htext] at hfind
      simp [hne]
    | some found => simp [Std.ExtTreeMap.getElem?_insert, hsame hfind]
  · funext other
    simp only [Scope.outline, Outline.Place.enter]
    cases hfind : names.find? other with
    | none => simp
    | some found =>
      rw [Option.any_some, Option.any_some, Bool.eq_iff_iff]
      simp [← hsame hfind]

theorem outline_enter (hnames : forest.names.Sound) {name : Name} {text : String}
    (htext : forest.names.spelling? name = some text) (id : ScopeId) (details : Variable.Details)
    (ordinal : Nat) : (forest.enter id name details ordinal).2.outline =
      forest.outline.enter id text details ordinal := by
  apply Outline.ext
  · simp only [outline, enter, Outline.enter, Array.size_map]
    exact map_modify (outline_entered hnames htext · _) forest.scopes id.raw
  · simp only [outline, enter, Outline.enter, Array.map_push, Array.size_map, Variable.outline,
      htext]

/-- Names are fit to be reserved unless one of their spellings has a dot. -/
theorem requireSimple_eq_ok_iff_not {names : List Name} {texts : List String}
    (htexts : names.map forest.names.spelling? = texts.map some) :
    forest.requireSimple (Std.ExtTreeSet.ofList names).toList = .ok () ↔
      ¬∃ text ∈ texts, isQualified text = true := by
  rw [requireSimple_eq_ok_iff]
  simp only [Std.ExtTreeSet.mem_toList, Std.ExtTreeSet.mem_ofList, List.contains_iff_mem]
  constructor
  · rintro hall ⟨text, htext, hdot⟩
    obtain ⟨name, hname, hspelled⟩ := (mem_iff_of_map_spelling? htexts).mp htext
    obtain ⟨other, hother, hplain⟩ := hall name hname
    rw [Option.some.inj (hspelled.symm.trans hother), hplain] at hdot
    cases hdot
  · intro hnone name hname
    have hspelled := List.mem_map_of_mem (f := forest.names.spelling?) hname
    rw [htexts, List.mem_map] at hspelled
    obtain ⟨text, htext, hspelled⟩ := hspelled
    exact ⟨text, hspelled.symm, Bool.eq_false_iff.mpr fun hdot => hnone ⟨text, htext, hdot⟩⟩

theorem addable_iff {parent : ScopeId} {around : Scope} {root : NodeId} {kind : Scope.Kind}
    {names : List Name} {texts : List String}
    (htexts : names.map forest.names.spelling? = texts.map some)
    (hinside : forest.scopes[parent.raw]? = some around) :
    forest.Addable parent around root kind (.ofList names) ↔
      ¬(kind.isRoot = true ∨ around.kind = .bottom ∨ around.root = root ∨
        (∃ text ∈ texts, isQualified text = true) ∨
        Handle.capacity ≤ forest.outline.scopes.size) := by
  rw [not_or, not_or, not_or, not_or, ← requireSimple_eq_ok_iff_not htexts, Bool.not_eq_true,
    outline, Array.size_map, Nat.not_le]
  constructor
  · exact fun hadds => ⟨hadds.inner, hadds.live, hadds.apart, hadds.simple, hadds.room⟩
  · exact fun ⟨hinner, hlive, hapart, hsimple, hroom⟩ =>
      ⟨hinner, hinside, hlive, hapart, hsimple, hroom⟩

/-- Adding a scope does to the outline what it does to the forest, and nothing where it fails. -/
theorem outline_adding (hnames : forest.names.Sound) (parent : ScopeId) (root : NodeId)
    (kind : Scope.Kind) {names : List Name} (module : Option ModuleId) {texts : List String}
    (htexts : names.map forest.names.spelling? = texts.map some) :
    ((adding parent root kind names module).run.run forest).2.outline =
      forest.outline.addScope parent root kind texts module := by
  rw [Outline.addScope, getElem?_outline_scopes]
  rcases run_adding forest parent root kind names module with
    ⟨around, hadds, hrun⟩ | ⟨hnot, fault, hrun⟩
  · rw [hrun, hadds.inside]
    exact (outline_push hnames htexts).trans
      (if_neg ((addable_iff htexts hadds.inside).mp hadds)).symm
  · rw [hrun]
    cases hscope : forest.scopes[parent.raw]? with
    | none => rfl
    | some around =>
      refine (if_pos ?_).symm
      by_contra hallowed
      exact hnot around ((addable_iff htexts hscope).mpr hallowed)

theorem declarable_iff (hnames : forest.names.Sound)
    (hempty : forest.names.spelling? .empty = some "") {name : Name} {text : String}
    (htext : forest.names.spelling? name = some text) {id : ScopeId} {within : Scope}
    (hinside : forest.scopes[id.raw]? = some within) :
    forest.Declarable id within name ↔
      ¬(within.kind = .bottom ∨ text = "" ∨
        ((within.outline forest.names).index text).isSome = true ∨
        Handle.capacity ≤ forest.outline.vars.size ∨
        Handle.capacity ≤ within.declared.size) := by
  rw [not_or, not_or, not_or, not_or, ← hnames.eq_iff htext hempty,
    within.outline_index hnames htext, ← Std.ExtTreeMap.mem_iff_isSome_getElem?,
    outline, Array.size_map, Nat.not_le, Nat.not_le]
  constructor
  · exact fun hdeclares => ⟨hdeclares.live, hdeclares.named, hdeclares.free, hdeclares.room,
      hdeclares.ordinal⟩
  · exact fun ⟨hlive, hnamed, hfree, hroom, hordinal⟩ =>
      ⟨hinside, hlive, hnamed, hfree, hroom, hordinal⟩

/-- A declaration does to the outline what it does to the forest, and nothing where it fails. -/
theorem outline_declaration (hsized : forest.Sized) {edit : Edit} {id : ScopeId} {ref : NameRef}
    {details : Variable.Details}
    (hedit : edit = .declare id ref details ∨ edit = .tryDeclare id ref details) {text : String}
    (hnames : (forest.names.name ref).2.Sound)
    (hempty : (forest.names.name ref).2.spelling? .empty = some "")
    (htext : (forest.names.name ref).2.spelling? (forest.names.name ref).1 = some text) :
    ((perform edit).run.run forest).2.outline =
      ({ forest with names := (forest.names.name ref).2 } : Forest).outline.declare id text
        details := by
  let named : Forest := { forest with names := (forest.names.name ref).2 }
  rw [Outline.declare, getElem?_outline_scopes]
  rcases run_declaration hsized hedit with ⟨within, hdeclares, hrun⟩ | ⟨hnot, outcome, hrun, _⟩
  · rw [hrun, hdeclares.inside]
    exact (outline_enter hnames htext id details _).trans
      (if_neg ((declarable_iff hnames hempty htext hdeclares.inside).mp hdeclares)).symm
  · rw [hrun]
    cases hscope : named.scopes[id.raw]? with
    | none => rfl
    | some within =>
      refine (if_pos ?_).symm
      by_contra hallowed
      exact hnot within ((declarable_iff hnames hempty htext hscope).mpr hallowed)

theorem Built.spelling?_empty (hbuilt : forest.Built) :
    forest.names.spelling? .empty = some "" := by
  obtain ⟨root, edits, rfl⟩ := hbuilt
  have hstart : NameTable.initial.spelling? .empty = some "" := by decide +kernel
  exact (extends_of_changes (after_changes (sized_ofRoot .initial root) edits)).names hstart

/-- Every edit does to the outline what it does to the forest. -/
theorem Spelt.outline_perform (hspelt : forest.Spelt) {edit : Edit} (hedit : edit.IsSpelled) :
    ((perform edit).run.run forest).2.outline = forest.outline.perform edit := by
  have hnames := hspelt.built.names_sound
  have hempty := hspelt.built.spelling?_empty
  cases edit with
  | intern ref => exact hspelt.outline_of_grown (hnames.grown_name ref)
  | addBottom root =>
    have hnone : Std.ExtTreeSet.ofList ([] : List Name) = ∅ := Std.ExtTreeSet.ofList_nil
    have hpush :
        (forest.push (.unbuilt [] .bottom root (.ofList ([] : List Name)) none)).2.outline =
          forest.outline.push (.unbuilt [] .bottom root ∅ none) [] := outline_push hnames rfl
    rw [hnone] at hpush
    have hsize : forest.outline.scopes.size = forest.scopes.size := Array.size_map
    rw [perform, Attempt.run_map_snd, run_addingBottom, Outline.perform, hsize]
    split
    next => exact hpush
    next => rfl
  | addScope parent root kind refs module =>
    have hgrown := hnames.grown_names refs
    have htexts := (hnames.spelling?_names hedit).trans
      (List.map_map (f := NameRef.text) (g := some)).symm
    rw [run_addScope, Attempt.run_map_snd, Outline.perform, ← hspelt.outline_of_grown hgrown]
    exact outline_adding hgrown.sound parent root kind module htexts
  | declare id ref details =>
    have hgrown := hnames.grown_name ref
    rw [Outline.perform, ← hspelt.outline_of_grown hgrown]
    exact outline_declaration hspelt.built.sized (.inl rfl) hgrown.sound (hgrown.kept hempty)
      (hnames.spelling?_name hedit)
  | tryDeclare id ref details =>
    have hgrown := hnames.grown_name ref
    rw [Outline.perform, ← hspelt.outline_of_grown hgrown]
    exact outline_declaration hspelt.built.sized (.inr rfl) hgrown.sound (hgrown.kept hempty)
      (hnames.spelling?_name hedit)
  | setRootType id type =>
    rw [perform, Attempt.run_bind_snd fun _ => Attempt.keeps_pure _, run_editScope]
    apply Outline.ext
    · simp only [outline, Outline.perform]
      apply map_modify
      intro within
      rfl
    · rfl
  | setType id type =>
    rw [perform, Attempt.run_bind_snd (fun _ state => Attempt.run_map_snd _ _ state), run_editVar]
    apply Outline.ext
    · rfl
    · simp only [outline, Outline.perform]
      apply map_modify
      intro found
      rfl

end Forest
end FlowTyping
