import FlowTyping.Proofs.Forest.Meaning

/-!
# Visible names

A scope lists the variables that it has in its index and no others. So the visible names of a scope
are those that are declared along its path, and a name that means anything in a scope is one of them.
-/
namespace FlowTyping.Forest

/-- What scopes list, and what they have in their index. -/
structure Listed (forest : Forest) : Prop where
  listed : ∀ {id : ScopeId} {scope : Scope} {name : Name} {var : VarId},
    forest.scopes[id.raw]? = some scope → scope.index[name]? = some var → var ∈ scope.declared
  indexed : ∀ {id : ScopeId} {scope : Scope} {var : VarId},
    forest.scopes[id.raw]? = some scope → var ∈ scope.declared →
      ∃ found, forest.vars[var.raw]? = some found ∧ scope.index[found.name]? = some var

private theorem Listed.of_entries {forest changed : Forest} (hlisted : forest.Listed)
    (hscopes : ∀ {i : Nat} {scope}, changed.scopes[i]? = some scope →
      (scope.declared = #[] ∧ scope.index = ∅) ∨ ∃ before, forest.scopes[i]? = some before ∧
        scope.declared = before.declared ∧ scope.index = before.index)
    (hvars : ∀ {i : Nat} {found}, forest.vars[i]? = some found →
      ∃ now, changed.vars[i]? = some now ∧ now.name = found.name) : changed.Listed := by
  constructor
  · intro id scope name var hscope hvar
    rcases hscopes hscope with ⟨_, hindex⟩ | ⟨before, hbefore, hdeclared, hindex⟩
    · rw [hindex] at hvar
      simp at hvar
    · rw [hdeclared]
      exact hlisted.listed hbefore (hindex ▸ hvar)
  · intro id scope var hscope hvar
    rcases hscopes hscope with ⟨hdeclared, _⟩ | ⟨before, hbefore, hdeclared, hindex⟩
    · rw [hdeclared] at hvar
      simp at hvar
    · obtain ⟨found, hfound, hentry⟩ := hlisted.indexed hbefore (hdeclared ▸ hvar)
      obtain ⟨now, hnow, hname⟩ := hvars hfound
      exact ⟨now, hnow, by rw [hindex, hname, hentry]⟩

private theorem push_listed {forest : Forest} (hlisted : forest.Listed) (outer : List ScopeId)
    (kind : Scope.Kind) (root : NodeId) (reserved : NameSet) (module : Option ModuleId) :
    (forest.push (.unbuilt outer kind root reserved module)).2.Listed := by
  refine hlisted.of_entries (fun hscope => ?_) fun hfound => ⟨_, hfound, rfl⟩
  rcases scopes_push_cases hscope with hbefore | ⟨_, rfl⟩
  · exact .inr ⟨_, hbefore, rfl, rfl⟩
  · exact .inl ⟨rfl, rfl⟩

private theorem enter_listed {forest : Forest} (hlisted : forest.Listed) {id : ScopeId}
    {within : Scope} {name : Name} (details : Variable.Details)
    (hdeclares : forest.Declarable id within name) :
    (forest.enter id name details within.declared.size).2.Listed := by
  have hwithin := hdeclares.inside
  have hfree := hdeclares.free
  constructor
  · intro id' scope name' var hscope hvar
    simp only [enter, Array.getElem?_modify] at hscope
    split at hscope
    next hid =>
      rw [← hid, hwithin] at hscope
      rw [← Option.some.inj hscope] at hvar ⊢
      dsimp only at hvar ⊢
      rw [Std.ExtTreeMap.getElem?_insert] at hvar
      split at hvar
      next =>
        rw [← Option.some.inj hvar]
        exact Array.mem_push_self
      next => exact Array.mem_push_of_mem _ (hlisted.listed hwithin hvar)
    next => exact hlisted.listed hscope hvar
  · intro id' scope var hscope hvar
    simp only [enter, Array.getElem?_modify] at hscope
    split at hscope
    next hid =>
      rw [← hid, hwithin] at hscope
      rw [← Option.some.inj hscope] at hvar ⊢
      dsimp only at hvar ⊢
      rcases Array.mem_push.mp hvar with hvar | rfl
      · obtain ⟨found, hfound, hentry⟩ := hlisted.indexed hwithin hvar
        refine ⟨found, vars_enter_of_some hfound id name details _, ?_⟩
        have hne : ¬compare name found.name = .eq := by
          intro heq
          rw [Std.LawfulEqOrd.eq_of_compare heq] at hfree
          exact hfree (Std.ExtTreeMap.mem_iff_isSome_getElem?.mpr (by rw [hentry]; rfl))
        rw [Std.ExtTreeMap.getElem?_insert, if_neg hne, hentry]
      · exact ⟨_, Array.getElem?_push_size, by simp⟩
    next =>
      obtain ⟨found, hfound, hentry⟩ := hlisted.indexed hscope hvar
      exact ⟨found, vars_enter_of_some hfound id name details _, hentry⟩

theorem Change.listed {before after : Forest} (hchange : Change before after)
    (hlisted : before.Listed) : after.Listed := by
  cases hchange with
  | name ref =>
    exact hlisted.of_entries (fun hscope => .inr ⟨_, hscope, rfl, rfl⟩)
      fun hfound => ⟨_, hfound, rfl⟩
  | bottom root hroom => exact push_listed hlisted _ _ _ _ _
  | scope module hadds => exact push_listed hlisted _ _ _ _ _
  | declaration details hdeclares => exact enter_listed hlisted details hdeclares
  | rootType id type =>
    refine hlisted.of_entries (fun {i scope} hscope => .inr ?_) fun hfound => ⟨_, hfound, rfl⟩
    simp only [Array.getElem?_modify] at hscope
    split at hscope
    next =>
      obtain ⟨scope, hbefore, rfl⟩ := Option.map_eq_some_iff.mp hscope
      exact ⟨scope, hbefore, rfl, rfl⟩
    next => exact ⟨scope, hscope, rfl, rfl⟩
  | varType id type =>
    refine hlisted.of_entries (fun hscope => .inr ⟨_, hscope, rfl, rfl⟩) fun hfound => ?_
    simp only [Array.getElem?_modify, hfound]
    split
    · exact ⟨_, rfl, rfl⟩
    · exact ⟨_, rfl, rfl⟩

theorem Built.listed {forest : Forest} (hbuilt : forest.Built) : forest.Listed := by
  refine hbuilt.of_changes (fun root => ?_) fun _ _ hchange => hchange.listed
  have hnone : Listed ⟨.initial, #[], #[]⟩ := by
    constructor <;> intro _ _ _ <;> simp
  exact push_listed hnone [] .global root ∅ none

variable {forest : Forest} {a : ScopeId} {name : Name}

theorem Listed.namesOf_spec (hlisted : forest.Listed) (hsound : forest.Sound)
    (ha : a.raw < forest.scopes.size) :
    ∃ names, forest.namesOf a = .ok names ∧
      ∀ name, name ∈ names ↔ ∃ found, forest.own? a name = some found := by
  have hscope := Array.getElem?_eq_getElem ha
  generalize forest.scopes[a.raw] = scope at hscope
  have hvar : ∀ {var : VarId} {found}, forest.var var = .ok found ↔
      forest.vars[var.raw]? = some found := by
    intro var found
    unfold Forest.var
    split <;> simp_all
  have hvars : ∀ var ∈ scope.declared.toList, ∃ found, forest.var var = .ok found := by
    intro var hmem
    obtain ⟨found, hfound, _⟩ := hlisted.indexed hscope (Array.mem_toList_iff.mp hmem)
    exact ⟨found, hvar.mpr hfound⟩
  obtain ⟨own, hown⟩ := Except.exists_mapM hvars
  refine ⟨own.map (·.name), ?_, fun name => ?_⟩
  · rw [namesOf, variablesOf, scope_eq_ok_iff.mpr hscope, Except.ok_bind, hown]
    rfl
  · rw [List.mem_map]
    constructor
    · rintro ⟨found, hmem, rfl⟩
      obtain ⟨var, hdeclared, hget⟩ := (Except.mem_of_mapM hown found).mp hmem
      obtain ⟨found', hfound', hentry⟩ :=
        hlisted.indexed hscope (Array.mem_toList_iff.mp hdeclared)
      obtain rfl := Option.some.inj ((hvar.mp hget).symm.trans hfound')
      exact ⟨found, by simp [own?, hscope, hentry, hfound']⟩
    · rintro ⟨found, hfound⟩
      obtain ⟨scope', hscope', hentry⟩ := Option.bind_eq_some_iff.mp hfound
      obtain rfl := Option.some.inj (hscope.symm.trans hscope')
      obtain ⟨var, hentry, hget⟩ := Option.bind_eq_some_iff.mp hentry
      refine ⟨found, (Except.mem_of_mapM hown found).mpr ⟨var, ?_, hvar.mpr hget⟩,
        (hsound.own?_facts hfound).2.1⟩
      exact Array.mem_toList_iff.mpr (hlisted.listed hscope hentry)

/-- The visible names of a scope are those that are declared along its path. -/
theorem Listed.visibleNames_spec (hlisted : forest.Listed) (hsound : forest.Sound)
    (ha : a.raw < forest.scopes.size) :
    ∃ names, forest.visibleNames a = .ok names ∧
      ∀ name, name ∈ names ↔ ∃ id ∈ forest.path a, ∃ found, forest.own? id name = some found := by
  have hnames : ∀ id ∈ forest.path a, ∃ names, forest.namesOf id = .ok names := by
    intro id hid
    obtain ⟨names, hnames, _⟩ := hlisted.namesOf_spec hsound (hsound.lt_size_of_path a id hid)
    exact ⟨names, hnames⟩
  obtain ⟨lists, hlists⟩ := Except.exists_mapM hnames
  refine ⟨lists.flatten, ?_, fun name => ?_⟩
  · rw [visibleNames, ancestors_eq_path ha, Except.ok_bind, hlists]
    rfl
  · rw [List.mem_flatten]
    constructor
    · rintro ⟨names, hmem, hname⟩
      obtain ⟨id, hid, hget⟩ := (Except.mem_of_mapM hlists names).mp hmem
      obtain ⟨names', hget', hown⟩ := hlisted.namesOf_spec hsound (hsound.lt_size_of_path a id hid)
      obtain rfl := Except.ok.inj (hget.symm.trans hget')
      exact ⟨id, hid, (hown name).mp hname⟩
    · rintro ⟨id, hid, hfound⟩
      obtain ⟨names, hget, hown⟩ := hlisted.namesOf_spec hsound (hsound.lt_size_of_path a id hid)
      exact ⟨names, (Except.mem_of_mapM hlists names).mpr ⟨id, hid, hget⟩, (hown name).mpr hfound⟩

theorem Listed.exists_visibleNames (hlisted : forest.Listed) (hsound : forest.Sound)
    (hnames : ∀ var ∈ forest.vars, forest.Interned var.name) (ha : a.raw < forest.scopes.size) :
    ∃ names, forest.visibleNames a = .ok names ∧ ∀ name ∈ names, forest.Interned name := by
  obtain ⟨names, hvisible, hdeclared⟩ := hlisted.visibleNames_spec hsound ha
  refine ⟨names, hvisible, fun name hname => ?_⟩
  obtain ⟨_, _, found, hfound⟩ := (hdeclared name).mp hname
  rw [← (hsound.own?_facts hfound).2.1]
  exact hnames found (mem_vars_of_own? hfound)

/-- A name that means something in a scope is one of its visible names. -/
theorem Listed.mem_visibleNames (hlisted : forest.Listed) (hsound : forest.Sound)
    {found : Variable} (hfound : forest.resolve a name = .ok (some found)) {names : List Name}
    (hnames : forest.visibleNames a = .ok names) : name ∈ names := by
  have hpath := hsound.scope_mem_path hfound
  obtain ⟨names', hnames', hvisible⟩ :=
    hlisted.visibleNames_spec hsound (lt_size_of_mem_path hpath)
  obtain rfl := Except.ok.inj (hnames.symm.trans hnames')
  exact (hvisible name).mpr ⟨found.scope, hpath, found, hsound.own?_of_resolve hfound⟩

end FlowTyping.Forest
