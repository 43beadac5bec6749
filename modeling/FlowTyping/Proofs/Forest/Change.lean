import FlowTyping.Forest.Edit
import FlowTyping.Proofs.Forest.Building

/-!
# What edits do

Every edit interns names and then makes at most one change to the scopes and variables. All that a
later proof has to know of the building of forests is the list of these changes.
-/
namespace FlowTyping.Forest

/-- A single change to a forest, with what was checked before it was made. -/
inductive Change : Forest → Forest → Prop where
  | name (forest : Forest) (ref : NameRef) :
    Change forest { forest with names := (forest.names.name ref).2 }
  | bottom {forest : Forest} (root : NodeId) (hroom : forest.scopes.size < Handle.capacity) :
    Change forest (forest.push (.unbuilt [] .bottom root ∅ none)).2
  | scope {forest : Forest} {parent : ScopeId} {around : Scope} {root : NodeId} {kind : Scope.Kind}
    {reserved : NameSet} (module : Option ModuleId)
    (hadds : forest.Addable parent around root kind reserved) :
    Change forest (forest.push (.unbuilt (parent :: around.outer) kind root reserved module)).2
  | declaration {forest : Forest} {id : ScopeId} {within : Scope} {name : Name}
    (details : Variable.Details) (hdeclares : forest.Declarable id within name) :
    Change forest (forest.enter id name details within.declared.size).2
  | rootType (forest : Forest) (id : ScopeId) (type : Option TypeId) :
    Change forest { forest with
      scopes := forest.scopes.modify id.raw fun within => { within with rootType := type } }
  | varType (forest : Forest) (id : VarId) (type : Option TypeId) :
    Change forest { forest with
      vars := forest.vars.modify id.raw fun found => { found with type := type } }

section Tables
variable {forest : Forest} {i : Nat}

private theorem getElem?_push_of_some {α : Type} {as : Array α} {a added : α}
    (ha : as[i]? = some a) : (as.push added)[i]? = some a := by
  have hlt := (Array.getElem?_eq_some_iff.mp ha).1
  rw [← ha]
  exact (Array.getElem?_push_lt hlt).trans (Array.getElem?_eq_getElem hlt).symm

theorem scopes_push_of_some {scope added : Scope} (hscope : forest.scopes[i]? = some scope) :
    (forest.push added).2.scopes[i]? = some scope :=
  getElem?_push_of_some hscope

theorem scopes_push_cases {scope added : Scope}
    (hscope : (forest.push added).2.scopes[i]? = some scope) :
    forest.scopes[i]? = some scope ∨ (i = forest.scopes.size ∧ scope = added) := by
  change (forest.scopes.push added)[i]? = some scope at hscope
  rw [Array.getElem?_push] at hscope
  split at hscope
  next hi => exact .inr ⟨hi, (Option.some.inj hscope).symm⟩
  next => exact .inl hscope

/-- Of the scopes a declaration changes the one that it is made in. -/
theorem scopes_enter {id : ScopeId} {within : Scope}
    (hwithin : forest.scopes[id.raw]? = some within) (name : Name) (details : Variable.Details)
    (ordinal i : Nat) :
    (forest.enter id name details ordinal).2.scopes[i]? =
      if id.raw = i then some { within with
        declared := within.declared.push ⟨forest.vars.size⟩
        index := within.index.insert name ⟨forest.vars.size⟩
        reserved := within.reserved.erase name } else forest.scopes[i]? := by
  simp only [enter, Array.getElem?_modify]
  split
  next hi => rw [← hi, hwithin, Option.map_some]
  next => rfl

theorem vars_enter_of_some {found : Variable} (hfound : forest.vars[i]? = some found)
    (id : ScopeId) (name : Name) (details : Variable.Details) (ordinal : Nat) :
    (forest.enter id name details ordinal).2.vars[i]? = some found :=
  getElem?_push_of_some hfound

end Tables

open Attempt

theorem run_intern (ref : NameRef) (forest : Forest) :
    (intern ref).run.run forest =
      (.ok (forest.names.name ref).1, { forest with names := (forest.names.name ref).2 }) :=
  run_always _ forest

theorem run_internAll (refs : List NameRef) (forest : Forest) :
    (internAll refs).run.run forest =
      (.ok (forest.names.names refs).1, { forest with names := (forest.names.names refs).2 }) :=
  run_always _ forest

def Interns (step : Forest → Forest → Prop) : Prop :=
  ∀ (forest : Forest) (ref : NameRef), step forest { forest with names := (forest.names.name ref).2 }

section
variable {step : Forest → Forest → Prop}

theorem Interns.intern_goesBy (hinterns : Interns step) (ref : NameRef) :
    GoesBy step (intern ref) :=
  goesBy_always fun forest => .single (hinterns forest ref)

theorem Interns.internAll_goesBy (hinterns : Interns step) (refs : List NameRef) :
    GoesBy step (internAll refs) := by
  refine goesBy_always fun forest => ?_
  induction refs generalizing forest with
  | nil => exact .refl
  | cons ref refs ih =>
    exact .head (hinterns forest ref) (ih { forest with names := (forest.names.name ref).2 })

end

theorem run_addScope (parent : ScopeId) (root : NodeId) (kind : Scope.Kind)
    (refs : List NameRef) (module : Option ModuleId) (forest : Forest) :
    (perform (.addScope parent root kind refs module)).run.run forest =
      (Edit.Outcome.added <$> adding parent root kind (forest.names.names refs).1 module).run.run
        { forest with names := (forest.names.names refs).2 } := by
  rw [perform, run_bind_of_ok (run_internAll refs forest)]

/-- A declaration goes through where its name may be declared. Elsewhere there is another answer,
and only the name is left behind. -/
theorem run_declaration {forest : Forest} (hsized : forest.Sized) {edit : Edit} {id : ScopeId}
    {ref : NameRef} {details : Variable.Details}
    (hedit : edit = .declare id ref details ∨ edit = .tryDeclare id ref details) :
    let named : Forest := { forest with names := (forest.names.name ref).2 }
    let name := (forest.names.name ref).1
    (∃ within, named.Declarable id within name ∧ (perform edit).run.run forest =
      (.ok (.declared ⟨forest.vars.size⟩),
        (named.enter id name details within.declared.size).2)) ∨
    (∀ within, ¬named.Declarable id within name) ∧
      ∃ outcome, (perform edit).run.run forest = (outcome, named) ∧
        ∀ var, outcome ≠ .ok (.declared var) := by
  intro named name
  have hkept : ∀ later, (named.Sized → later = named) → later = named :=
    fun _ hkept => hkept (hsized.naming _)
  have hintern := run_intern ref forest
  rcases run_tryBinding named id name details with
    ⟨within, hdeclares, hrun⟩ | ⟨hnot, answer, later, hrun, hanswer, hkeeps⟩
  · refine .inl ⟨within, hdeclares, ?_⟩
    rcases hedit with rfl | rfl
    · rw [perform, run_map, declaring, run_bind_of_ok hintern, binding, run_expecting, hrun]
      rfl
    · rw [perform, tryDeclaring, bind_assoc, run_bind_of_ok hintern, run_bind_of_ok hrun]
      rfl
  · refine .inr ⟨hnot, ?_⟩
    obtain rfl := hkept later hkeeps
    rcases hedit with rfl | rfl
    · rw [perform, run_map, declaring, run_bind_of_ok hintern, binding, run_expecting, hrun]
      rcases answer with fault | error | var
      · exact ⟨_, rfl, by simp [Except.map]⟩
      · exact ⟨_, rfl, by simp [Except.map]⟩
      · exact absurd rfl (hanswer var)
    · rw [perform, tryDeclaring, bind_assoc, run_bind_of_ok hintern]
      rcases answer with fault | error | var
      · exact ⟨_, run_bind_of_error hrun, by simp⟩
      · exact ⟨_, run_bind_of_ok hrun, by simp⟩
      · exact absurd rfl (hanswer var)

/-! ## Changes of sized forests -/

theorem tryDeclare_change {forest changed : Forest} {id : ScopeId} {var : VarId} {name : Name}
    {details : Variable.Details}
    (hdeclare : forest.tryDeclare id name details = .ok (.ok (var, changed))) :
    Change forest changed := by
  obtain ⟨within, hdeclares, henter⟩ := tryDeclare_eq_ok_iff.mp hdeclare
  have hchange := Change.declaration details hdeclares
  rw [henter] at hchange
  exact hchange

/-- A change takes a sized forest to a sized forest: a declaration adds one variable to one scope
and one to all. -/
theorem Change.sized {before after : Forest} (hchange : Change before after)
    (hsized : before.Sized) : after.Sized := by
  -- A new scope declares nothing yet.
  have hpush : ∀ {added : Scope}, added.declared = #[] → before.scopes.size < Handle.capacity →
      (before.push added).2.Sized := by
    intro added hnone hroom
    refine ⟨?_, hsized.vars, fun hscope => ?_⟩
    · simpa [push] using Nat.succ_le_of_lt hroom
    · rcases scopes_push_cases hscope with hscope | ⟨_, rfl⟩
      · exact hsized.declared hscope
      · simp [hnone]
  cases hchange with
  | name ref => exact hsized.naming _
  | bottom root hroom => exact hpush rfl hroom
  | scope module hadds => exact hpush rfl hadds.room
  | @declaration id within name details hdeclares =>
    have hvars : (before.enter id name details within.declared.size).2.vars.size =
        before.vars.size + 1 := Array.size_push ..
    refine ⟨?_, ?_, fun {i scope} hscope => ?_⟩
    · simpa [enter] using hsized.scopes
    · rw [hvars]
      exact Nat.succ_le_of_lt hdeclares.room
    · rw [scopes_enter hdeclares.inside] at hscope
      rw [hvars]
      split at hscope
      · cases hscope
        simpa using hsized.declared hdeclares.inside
      · exact Nat.le_succ_of_le (hsized.declared hscope)
  | rootType id type =>
    refine ⟨by simpa using hsized.scopes, hsized.vars, fun {i scope} hscope => ?_⟩
    simp only [Array.getElem?_modify] at hscope
    split at hscope
    · obtain ⟨old, hold, rfl⟩ := Option.map_eq_some_iff.mp hscope
      simpa using hsized.declared hold
    · exact hsized.declared hscope
  | varType id type =>
    exact ⟨hsized.scopes, by simpa using hsized.vars,
      fun hscope => by simpa using hsized.declared hscope⟩

/-- A change of a sized forest. Of other forests nothing is told. -/
def SizedChange (before after : Forest) : Prop := before.Sized → Change before after

theorem changes_of_sized {forest later : Forest} (hsized : forest.Sized)
    (hsteps : Relation.ReflTransGen SizedChange forest later) :
    Relation.ReflTransGen Change forest later ∧ later.Sized := by
  induction hsteps with
  | refl => exact ⟨.refl, hsized⟩
  | tail _ hstep ih =>
    have hchange := hstep ih.2
    exact ⟨ih.1.tail hchange, hchange.sized ih.2⟩

theorem change_interns : Interns SizedChange := fun forest ref _ => .name forest ref

theorem intern_goesBy (ref : NameRef) : GoesBy SizedChange (intern ref) :=
  change_interns.intern_goesBy ref

theorem adding_goesBy (parent : ScopeId) (root : NodeId) (kind : Scope.Kind)
    (reserved : List Name) (module : Option ModuleId) :
    GoesBy SizedChange (adding parent root kind reserved module) := by
  intro forest
  rcases run_adding forest parent root kind reserved module with
    ⟨around, hadds, hrun⟩ | ⟨_, fault, hrun⟩
  · rw [hrun]
    exact .single fun _ => .scope module hadds
  · rw [hrun]

theorem declaration_goesBy {edit : Edit} {id : ScopeId} {ref : NameRef}
    {details : Variable.Details}
    (hedit : edit = .declare id ref details ∨ edit = .tryDeclare id ref details) :
    GoesBy SizedChange (perform edit) := by
  intro forest
  by_cases hsized : forest.Sized
  · have hname : SizedChange forest _ := fun _ => .name forest ref
    rcases run_declaration hsized hedit with ⟨within, hdeclares, hrun⟩ | ⟨_, outcome, hrun, _⟩
    · rw [hrun]
      exact .tail (.single hname) fun _ => .declaration details hdeclares
    · rw [hrun]
      exact .single hname
  · exact .single fun hsized' => absurd hsized' hsized

/-- Everything that an edit does to a sized forest is a sequence of changes. -/
theorem perform_goesBy (edit : Edit) : GoesBy SizedChange (perform edit) := by
  cases edit with
  | intern ref => exact (intern_goesBy ref).map _
  | addBottom root =>
    refine GoesBy.map _ fun forest => ?_
    rw [run_addingBottom]
    split
    next hroom => exact .single fun _ => .bottom root hroom
    next => exact .refl
  | addScope parent root kind reserved module =>
    exact (change_interns.internAll_goesBy reserved).bind fun names =>
      (adding_goesBy parent root kind names module).map _
  | declare id ref details => exact declaration_goesBy (.inl rfl)
  | tryDeclare id ref details => exact declaration_goesBy (.inr rfl)
  | setRootType id type =>
    refine GoesBy.bind (fun forest => ?_) fun _ => goesBy_pure _
    rw [run_editScope]
    exact .single fun _ => .rootType forest id type
  | setType id type =>
    refine GoesBy.bind (fun forest => ?_) fun _ => (goesBy_reading _).map _
    rw [run_editVar]
    exact .single fun _ => .varType forest id type

theorem nest_goesBy (parent : ScopeId) (root : NodeId) (kind : Scope.Kind) (count : Nat) :
    GoesBy SizedChange (nest parent root kind count) :=
  goesBy_foldlM (fun parent i => adding_goesBy parent (root.after i) kind [] none) _ _

theorem declaring_goesBy (scope : ScopeId) (ref : NameRef) (details : Variable.Details) :
    GoesBy SizedChange (declaring scope ref details) := by
  intro forest
  have hgoes := perform_goesBy (.declare scope ref details) forest
  rwa [perform, run_map_snd] at hgoes

theorem declareNumbered_goesBy (scope : ScopeId) (stem : String) (count : Nat)
    (details : Variable.Details) : GoesBy SizedChange (declareNumbered scope stem count details) :=
  goesBy_foldlM (fun _ i => (declaring_goesBy scope (.spelled (stem ++ toString i)) details).map _)
    _ _

theorem after_goesBy (forest : Forest) (edits : List Edit) :
    Relation.ReflTransGen SizedChange forest (forest.after edits) := by
  induction edits generalizing forest with
  | nil => exact .refl
  | cons edit edits ih => exact (perform_goesBy edit forest).trans (ih _)

theorem after_changes {forest : Forest} (hsized : forest.Sized) (edits : List Edit) :
    Relation.ReflTransGen Change forest (forest.after edits) :=
  (changes_of_sized hsized (after_goesBy forest edits)).1

theorem sized_ofRoot (names : NameTable) (root : NodeId) : (ofRoot names root).Sized := by
  refine ⟨show 1 ≤ Handle.capacity by decide, Nat.zero_le _, fun {i scope} hscope => ?_⟩
  obtain rfl : scope = .unbuilt [] .global root ∅ none :=
    Array.mem_singleton.mp (Array.mem_of_getElem? hscope)
  exact Nat.le_refl 0

/-- A forest that edits made of the global scope. -/
def Built (forest : Forest) : Prop := ∃ root edits, forest = (ofRoot .initial root).after edits

/-- A property of the global scope alone that every change keeps holds of all forests. -/
theorem Built.of_changes {forest : Forest} {inv : Forest → Prop} (hbuilt : forest.Built)
    (hstart : ∀ root, inv (ofRoot .initial root))
    (hchange : ∀ before after, Change before after → inv before → inv after) : inv forest := by
  obtain ⟨root, edits, rfl⟩ := hbuilt
  have hsteps := after_changes (sized_ofRoot .initial root) edits
  generalize (ofRoot .initial root).after edits = forest at hsteps
  induction hsteps with
  | refl => exact hstart root
  | tail _ hstep ih => exact hchange _ _ hstep ih

theorem Built.sized {forest : Forest} (hbuilt : forest.Built) : forest.Sized :=
  hbuilt.of_changes (sized_ofRoot .initial) fun _ _ hchange => hchange.sized

theorem after_append (forest : Forest) (edits further : List Edit) :
    forest.after (edits ++ further) = (forest.after edits).after further :=
  List.foldl_append

theorem Built.after {forest : Forest} (hbuilt : forest.Built) (edits : List Edit) :
    (forest.after edits).Built := by
  obtain ⟨root, first, rfl⟩ := hbuilt
  exact ⟨root, first ++ edits, (after_append _ first edits).symm⟩

section Reached
variable {before after : Forest}

/-- References by number leave the table alone. -/
theorem names_numbered (table : NameTable) (names : List Name) :
    table.names (names.map (.numbered ·.raw)) = (names, table) := by
  induction names with
  | nil => rfl
  | cons name names ih =>
    rw [List.map_cons, NameTable.names]
    simp only [NameTable.name, ih]

/-- Every change is what some edit does. -/
theorem Change.exists_edit (hchange : Change before after) :
    ∃ edit, ((perform edit).run.run before).2 = after := by
  cases hchange with
  | name ref => exact ⟨.intern ref, rfl⟩
  | bottom root hroom =>
    refine ⟨.addBottom root, ?_⟩
    rw [perform, run_map_snd, run_addingBottom, if_pos hroom]
  | @scope parent around root kind reserved module hadds =>
    have hsame : Std.ExtTreeSet.ofList reserved.toList = reserved := by
      apply Std.ExtTreeSet.ext_mem
      simp
    refine ⟨.addScope parent root kind (reserved.toList.map (.numbered ·.raw)) module, ?_⟩
    rw [run_addScope, run_map_snd, names_numbered]
    rcases run_adding before parent root kind reserved.toList module with
      ⟨around', hadds', hrun⟩ | ⟨hnot, _⟩
    · rw [hrun, hsame, hadds.eq hadds'.inside]
    · rw [hsame] at hnot
      exact absurd hadds (hnot around)
  | @declaration id within name details hdeclares =>
    have hbinding := run_binding_eq_ok_iff.mpr <| run_tryBinding_eq_ok_iff.mpr
      ⟨within, hdeclares, show before.enter id name details _ = _ from rfl⟩
    refine ⟨.declare id (.numbered name.raw) details, ?_⟩
    rw [perform, run_map_snd, declaring, run_bind_of_ok (run_intern _ before)]
    exact congrArg Prod.snd hbinding
  | rootType id type =>
    refine ⟨.setRootType id type, ?_⟩
    rw [perform, run_bind_snd fun _ => keeps_pure _, run_editScope]
  | varType id type =>
    refine ⟨.setType id type, ?_⟩
    rw [perform, run_bind_snd fun _ state => run_map_snd _ _ state, run_editVar]

theorem Built.change (hbuilt : before.Built) (hchange : Change before after) : after.Built := by
  obtain ⟨edit, hedit⟩ := hchange.exists_edit
  rw [← hedit]
  exact hbuilt.after [edit]

theorem Built.of_reachable {root : NodeId} {forest : Forest}
    (hreach : Relation.ReflTransGen Change (ofRoot .initial root) forest) : forest.Built := by
  induction hreach with
  | refl => exact ⟨root, [], rfl⟩
  | tail _ hchange ih => exact ih.change hchange

end Reached

end FlowTyping.Forest
