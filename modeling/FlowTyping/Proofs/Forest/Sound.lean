import FlowTyping.Proofs.Forest.Change

/-!
# Sound forests

In a forest that was built by edits, the path of a scope is its parent followed by the path of the
parent, which is an older scope and no bottom, so that all paths but those of bottoms end in the
global scope. What a scope has in its index are variables of the scope itself.
-/
namespace FlowTyping.Forest

/-- What holds of every forest that edits can build. -/
structure Sound (forest : Forest) : Prop where
  global : ∃ scope, forest.scopes[0]? = some scope ∧ scope.kind = .global
  root : ∀ {id : ScopeId} {scope}, forest.scopes[id.raw]? = some scope → scope.outer = [] →
    scope.kind = .bottom ∨ id = Forest.global
  inner : ∀ {id : ScopeId} {scope parent path}, forest.scopes[id.raw]? = some scope →
    scope.outer = parent :: path → scope.kind.isRoot = false ∧ parent.raw < id.raw ∧
      ∃ around, forest.scopes[parent.raw]? = some around ∧ around.kind ≠ .bottom ∧
        around.outer = path
  declared : ∀ {id : ScopeId} {scope name} {var : VarId}, forest.scopes[id.raw]? = some scope →
    scope.index[name]? = some var →
      ∃ found, forest.vars[var.raw]? = some found ∧ found.scope = id ∧ found.name = name

/-- What of a scope never changes and decides on paths. -/
private def place (scope : Scope) : Scope.Kind × List ScopeId := (scope.kind, scope.outer)

private theorem ofRoot_sound (names : NameTable) (root : NodeId) : (ofRoot names root).Sound := by
  have honly : ∀ {id : ScopeId} {scope}, (ofRoot names root).scopes[id.raw]? = some scope →
      id = Forest.global ∧ scope = .unbuilt [] .global root ∅ none := by
    intro id scope hscope
    obtain ⟨hlt, hget⟩ := Array.getElem?_eq_some_iff.mp hscope
    have hid : id.raw = 0 := Nat.lt_one_iff.mp hlt
    refine ⟨Handle.ext hid, ?_⟩
    simpa [ofRoot, hid] using hget.symm
  refine ⟨⟨_, rfl, rfl⟩, ?_, ?_, ?_⟩
  · intro id scope hscope _
    exact .inr (honly hscope).1
  · intro id scope parent path hscope houter
    rw [(honly hscope).2] at houter
    cases houter
  · intro id scope name var hscope hvar
    rw [(honly hscope).2] at hvar
    simp [Scope.unbuilt] at hvar

private theorem Sound.of_places {forest changed : Forest} (hsound : forest.Sound)
    (hplaces : ∀ i : Nat, changed.scopes[i]?.map place = forest.scopes[i]?.map place)
    (hdeclared : ∀ {id : ScopeId} {scope name} {var : VarId},
      changed.scopes[id.raw]? = some scope → scope.index[name]? = some var →
        ∃ found, changed.vars[var.raw]? = some found ∧ found.scope = id ∧ found.name = name) :
    changed.Sound := by
  have hback : ∀ {i : Nat} {scope}, changed.scopes[i]? = some scope →
      ∃ before, forest.scopes[i]? = some before ∧ scope.kind = before.kind ∧
        scope.outer = before.outer := by
    intro i scope hscope
    have hplace := hplaces i
    rw [hscope] at hplace
    obtain ⟨before, hbefore, heq⟩ := Option.map_eq_some_iff.mp hplace.symm
    exact ⟨before, hbefore, (congrArg Prod.fst heq).symm, (congrArg Prod.snd heq).symm⟩
  have hforth : ∀ {i : Nat} {before}, forest.scopes[i]? = some before →
      ∃ scope, changed.scopes[i]? = some scope ∧ scope.kind = before.kind ∧
        scope.outer = before.outer := by
    intro i before hbefore
    have hplace := hplaces i
    rw [hbefore] at hplace
    obtain ⟨scope, hscope, heq⟩ := Option.map_eq_some_iff.mp hplace
    exact ⟨scope, hscope, congrArg Prod.fst heq, congrArg Prod.snd heq⟩
  refine ⟨?_, ?_, ?_, hdeclared⟩
  · obtain ⟨before, hbefore, hkind⟩ := hsound.global
    obtain ⟨scope, hscope, hsame, _⟩ := hforth hbefore
    exact ⟨scope, hscope, hsame.trans hkind⟩
  · intro id scope hscope houter
    obtain ⟨before, hbefore, hkind, hpath⟩ := hback hscope
    rw [hkind]
    exact hsound.root hbefore (hpath ▸ houter)
  · intro id scope parent path hscope houter
    obtain ⟨before, hbefore, hkind, hpath⟩ := hback hscope
    obtain ⟨hnested, hlt, around, haround, hlive, hrest⟩ := hsound.inner hbefore (hpath ▸ houter)
    obtain ⟨around', haround', hkind', hpath'⟩ := hforth haround
    exact ⟨hkind ▸ hnested, hlt, around', haround', hkind' ▸ hlive, hpath'.trans hrest⟩

private theorem push_sound {forest : Forest} (hsound : forest.Sound) {added : Scope}
    (hindex : added.index = ∅) (hroot : added.outer = [] → added.kind = .bottom)
    (hinner : ∀ {parent path}, added.outer = parent :: path → added.kind.isRoot = false ∧
      ∃ around, forest.scopes[parent.raw]? = some around ∧ around.kind ≠ .bottom ∧
        around.outer = path) : (forest.push added).2.Sound := by
  refine ⟨?_, ?_, ?_, ?_⟩
  · obtain ⟨scope, hscope, hkind⟩ := hsound.global
    exact ⟨scope, scopes_push_of_some hscope, hkind⟩
  · intro id scope hscope houter
    rcases scopes_push_cases hscope with hscope | ⟨_, rfl⟩
    · exact hsound.root hscope houter
    · exact .inl (hroot houter)
  · intro id scope parent path hscope houter
    rcases scopes_push_cases hscope with hscope | ⟨hid, rfl⟩
    · obtain ⟨hnested, hlt, around, haround, hlive, hrest⟩ := hsound.inner hscope houter
      exact ⟨hnested, hlt, around, scopes_push_of_some haround, hlive, hrest⟩
    · obtain ⟨hnested, around, haround, hlive, hrest⟩ := hinner houter
      have hlt := (Array.getElem?_eq_some_iff.mp haround).1
      exact ⟨hnested, by omega, around, scopes_push_of_some haround, hlive, hrest⟩
  · intro id scope name var hscope hvar
    rcases scopes_push_cases hscope with hscope | ⟨_, rfl⟩
    · exact hsound.declared hscope hvar
    · rw [hindex] at hvar
      simp at hvar

private theorem enter_sound {forest : Forest} (hsound : forest.Sound) (id : ScopeId) (name : Name)
    (details : Variable.Details) (ordinal : Nat) :
    (forest.enter id name details ordinal).2.Sound := by
  refine hsound.of_places (fun i => ?_) ?_
  · simp only [enter, Array.getElem?_modify]
    split
    · cases forest.scopes[i]? <;> rfl
    · rfl
  · intro id' scope name' var hscope hvar
    have hold : ∀ {scope}, forest.scopes[id'.raw]? = some scope →
        scope.index[name']? = some var → ∃ found,
          (forest.enter id name details ordinal).2.vars[var.raw]? = some found ∧
            found.scope = id' ∧ found.name = name' := by
      intro scope hscope hvar
      obtain ⟨found, hfound, hfacts⟩ := hsound.declared hscope hvar
      exact ⟨found, vars_enter_of_some hfound id name details ordinal, hfacts⟩
    simp only [enter, Array.getElem?_modify] at hscope
    split at hscope
    next hid =>
      obtain ⟨before, hbefore, heq⟩ := Option.map_eq_some_iff.mp hscope
      rw [← heq] at hvar
      dsimp only at hvar
      rw [Std.ExtTreeMap.getElem?_insert] at hvar
      split at hvar
      next hname =>
        rw [← Option.some.inj hvar]
        refine ⟨_, Array.getElem?_push_size, Handle.ext hid, ?_⟩
        exact Std.LawfulEqOrd.eq_of_compare hname
      next => exact hold hbefore hvar
    next => exact hold hscope hvar

theorem Change.sound {before after : Forest} (hchange : Change before after)
    (hsound : before.Sound) : after.Sound := by
  cases hchange with
  | name ref => exact hsound.of_places (fun _ => rfl) hsound.declared
  | bottom root hroom =>
    refine push_sound hsound rfl (fun _ => rfl) ?_
    intro parent path houter
    cases houter
  | scope module hadds =>
    refine push_sound hsound rfl (fun houter => by cases houter) ?_
    intro parent path houter
    cases houter
    exact ⟨hadds.inner, _, hadds.inside, hadds.live, rfl⟩
  | declaration details hdeclares => exact enter_sound hsound _ _ _ _
  | rootType id type =>
    refine hsound.of_places (fun i => ?_) fun hscope hvar => ?_
    · simp only [Array.getElem?_modify]
      split
      · cases before.scopes[i]? <;> rfl
      · rfl
    · simp only [Array.getElem?_modify] at hscope
      split at hscope
      next =>
        obtain ⟨scope, hbefore, rfl⟩ := Option.map_eq_some_iff.mp hscope
        exact hsound.declared hbefore hvar
      next => exact hsound.declared hscope hvar
  | varType id type =>
    refine hsound.of_places (fun _ => rfl) fun hscope hvar => ?_
    obtain ⟨found, hfound, hfacts⟩ := hsound.declared hscope hvar
    simp only [Array.getElem?_modify, hfound]
    split
    · exact ⟨_, rfl, hfacts⟩
    · exact ⟨found, rfl, hfacts⟩

theorem Built.sound {forest : Forest} (hbuilt : forest.Built) : forest.Sound :=
  hbuilt.of_changes (ofRoot_sound .initial) fun _ _ hchange => hchange.sound

end FlowTyping.Forest
