import FlowTyping.Proofs.Forest.Later
import FlowTyping.Proofs.Forest.Root
import FlowTyping.Proofs.Forest.Visible

/-!
# Well-formed forests

The scopes of a forest, their lists of variables, their indexes and the table of variables say the
same of every declaration, whatever was built and whatever was refused on the way.
-/
namespace FlowTyping.Forest

/-- What the tables of a forest say of a scope. -/
structure Regular (forest : Forest) (id : ScopeId) (scope : Scope) : Prop where
  entry : ∀ {i : Nat} {var}, scope.declared[i]? = some var →
    ∃ found, forest.vars[var.raw]? = some found ∧ found.id = var ∧ found.scope = id ∧
      found.ordinal = i ∧ found.name ≠ .empty
  increasing : scope.declared.toList.Pairwise fun a b => a.raw < b.raw
  dead : scope.kind = .bottom → scope.declared = #[] ∧ scope.index = ∅ ∧ scope.reserved = ∅
  root : ∀ {parent path}, scope.outer = parent :: path →
    ∃ around, forest.scopes[parent.raw]? = some around ∧ around.root ≠ scope.root
  reserved : ∀ {name}, name ∈ scope.reserved → forest.Simple name ∧ name ∉ scope.index

/-- What the tables of a forest say of a variable. -/
structure Registered (forest : Forest) (var : VarId) (found : Variable) : Prop where
  id : found.id = var
  listed : ∃ scope, forest.scopes[found.scope.raw]? = some scope ∧
    scope.declared[found.ordinal]? = some var

/-- The tables agree on all scopes and all variables. -/
structure Whole (forest : Forest) : Prop where
  scopes : ∀ {id : ScopeId} {scope}, forest.scopes[id.raw]? = some scope → forest.Regular id scope
  vars : ∀ {var : VarId} {found}, forest.vars[var.raw]? = some found → forest.Registered var found

variable {forest later : Forest} {id : ScopeId}

theorem Regular.grow {scope : Scope} (hregular : forest.Regular id scope)
    (hlater : later.Extends forest) (type : Option TypeId) :
    later.Regular id { scope with rootType := type } where
  entry hvar := by
    obtain ⟨found, hfound, hfacts⟩ := hregular.entry hvar
    obtain ⟨type, hnow⟩ := hlater.vars hfound
    exact ⟨_, hnow, hfacts⟩
  increasing := hregular.increasing
  dead := hregular.dead
  root houter := by
    obtain ⟨around, haround, hroot⟩ := hregular.root houter
    obtain ⟨now, hnow, hextends⟩ := hlater.scopes haround
    exact ⟨now, hnow, hextends.root ▸ hroot⟩
  reserved hname := ⟨hlater.simple (hregular.reserved hname).1, (hregular.reserved hname).2⟩

theorem Registered.grow {var : VarId} {found : Variable} (hregistered : forest.Registered var found)
    (hlater : later.Extends forest) (type : Option TypeId) :
    later.Registered var { found with type := type } where
  id := hregistered.id
  listed := by
    obtain ⟨scope, hscope, hvar⟩ := hregistered.listed
    obtain ⟨now, hnow, hextends⟩ := hlater.scopes hscope
    exact ⟨now, hnow, hextends.getElem?_declared hvar⟩

/-- A later forest needs an argument for what is new in it only. -/
theorem Whole.grow (hwhole : forest.Whole) (hlater : later.Extends forest)
    (hscopes : ∀ {id : ScopeId} {scope}, later.scopes[id.raw]? = some scope →
      (∃ old type, forest.scopes[id.raw]? = some old ∧ scope = { old with rootType := type }) ∨
        later.Regular id scope)
    (hvars : ∀ {var : VarId} {found}, later.vars[var.raw]? = some found →
      (∃ old type, forest.vars[var.raw]? = some old ∧ found = { old with type := type }) ∨
        later.Registered var found) : later.Whole := by
  constructor
  · intro id scope hscope
    rcases hscopes hscope with ⟨old, type, hold, rfl⟩ | hnew
    · exact (hwhole.scopes hold).grow hlater type
    · exact hnew
  · intro var found hfound
    rcases hvars hfound with ⟨old, type, hold, rfl⟩ | hnew
    · exact (hwhole.vars hold).grow hlater type
    · exact hnew

theorem regular_unbuilt {kind : Scope.Kind} {outer : List ScopeId} {root : NodeId}
    {reserved : NameSet} (module : Option ModuleId)
    (hdead : kind = .bottom → reserved = ∅)
    (hroot : ∀ {parent path}, outer = parent :: path →
      ∃ around, forest.scopes[parent.raw]? = some around ∧ around.root ≠ root)
    (hreserved : ∀ {name}, name ∈ reserved → forest.Simple name) :
    forest.Regular id (.unbuilt outer kind root reserved module) where
  entry hvar := by simp [Scope.unbuilt] at hvar
  increasing := List.Pairwise.nil
  dead hkind := ⟨rfl, rfl, hdead hkind⟩
  root := hroot
  reserved hname := ⟨hreserved hname, by simp [Scope.unbuilt]⟩

theorem push_whole (hwhole : forest.Whole) {added : Scope}
    (hregular : (forest.push added).2.Regular ⟨forest.scopes.size⟩ added) :
    (forest.push added).2.Whole := by
  refine hwhole.grow (push_extends forest added) (fun {id scope} hscope => ?_)
    fun {var found} hfound => .inl ⟨found, found.type, hfound, rfl⟩
  rcases scopes_push_cases hscope with hold | ⟨hid, rfl⟩
  · exact .inl ⟨scope, scope.rootType, hold, rfl⟩
  · have hsame : id = ⟨forest.scopes.size⟩ := Handle.ext hid
    exact .inr (hsame ▸ hregular)

/-- A declaration fills the next place of its scope with the next variable. -/
theorem enter_regular (hwhole : forest.Whole) {within : Scope} {name : Name}
    (details : Variable.Details) (hdeclares : forest.Declarable id within name) :
    (forest.enter id name details within.declared.size).2.Regular id { within with
      declared := within.declared.push ⟨forest.vars.size⟩
      index := within.index.insert name ⟨forest.vars.size⟩
      reserved := within.reserved.erase name } := by
  have hwithin := hdeclares.inside
  have hold := (hwhole.scopes hwithin).grow
    (enter_extends forest id name details within.declared.size) within.rootType
  constructor
  · intro i var hvar
    rw [Array.getElem?_push] at hvar
    split at hvar
    next hi =>
      obtain rfl := Option.some.inj hvar
      exact ⟨_, Array.getElem?_push_size, rfl, rfl, hi.symm, hdeclares.named⟩
    next => exact hold.entry hvar
  · rw [Array.toList_push]
    apply List.pairwise_append.mpr ⟨hold.increasing, List.pairwise_singleton _ _, _⟩
    intro var hvar added hadded
    obtain ⟨i, hi⟩ := List.mem_iff_getElem?.mp hvar
    obtain ⟨found, hfound, _⟩ := (hwhole.scopes hwithin).entry (by simpa using hi)
    have hlt := (Array.getElem?_eq_some_iff.mp hfound).1
    rw [List.mem_singleton.mp hadded]
    exact hlt
  · exact fun hdead => absurd hdead hdeclares.live
  · exact hold.root
  · intro other hother
    rw [Std.ExtTreeSet.mem_erase] at hother
    obtain ⟨hsimple, hfree⟩ := hold.reserved hother.2
    simp [Std.ExtTreeMap.mem_insert, hother.1, hfree, hsimple]

theorem enter_whole (hwhole : forest.Whole) {within : Scope} {name : Name}
    (details : Variable.Details) (hdeclares : forest.Declarable id within name) :
    (forest.enter id name details within.declared.size).2.Whole := by
  have hscope := scopes_enter hdeclares.inside name details within.declared.size
  refine hwhole.grow (enter_extends forest id name details _) (fun {id' scope} hafter => ?_)
    fun {var found} hafter => ?_
  · rw [hscope] at hafter
    split at hafter
    next hid =>
      obtain rfl : id = id' := Handle.ext hid
      obtain rfl := Option.some.inj hafter
      exact .inr (enter_regular hwhole details hdeclares)
    next => exact .inl ⟨scope, scope.rootType, hafter, rfl⟩
  · simp only [enter, Array.getElem?_push] at hafter
    split at hafter
    next hvar =>
      obtain rfl := Option.some.inj hafter
      have hsame : var = ⟨forest.vars.size⟩ := Handle.ext hvar
      refine .inr ⟨hsame.symm, _, (hscope id.raw).trans (if_pos rfl), ?_⟩
      simp [hsame]
    next => exact .inl ⟨found, found.type, hafter, rfl⟩

theorem Change.whole {before after : Forest} (hchange : Change before after)
    (hwhole : before.Whole) : after.Whole := by
  have hextends := hchange.extends
  cases hchange with
  | name ref =>
    exact hwhole.grow hextends (fun {_ scope} hscope => .inl ⟨scope, scope.rootType, hscope, rfl⟩)
      fun {_ found} hfound => .inl ⟨found, found.type, hfound, rfl⟩
  | bottom root hroom =>
    apply push_whole hwhole
    apply regular_unbuilt none (fun _ => rfl)
    · simp
    · simp
  | @scope parent around root kind reserved module hadds =>
    apply push_whole hwhole
    apply regular_unbuilt module
    · rintro rfl
      cases hadds.inner
    · intro parent' path houter
      obtain ⟨rfl, -⟩ := List.cons.inj houter
      exact ⟨around, scopes_push_of_some hadds.inside, hadds.apart⟩
    · intro name hname
      exact requireSimple_eq_ok_iff.mp hadds.simple name (Std.ExtTreeSet.mem_toList.mpr hname)
  | declaration details hdeclares => exact enter_whole hwhole details hdeclares
  | rootType id type =>
    refine hwhole.grow hextends (fun {id scope} hscope => .inl ?_)
      fun {_ found} hfound => .inl ⟨found, found.type, hfound, rfl⟩
    simp only [Array.getElem?_modify] at hscope
    split at hscope
    next =>
      obtain ⟨old, hold, rfl⟩ := Option.map_eq_some_iff.mp hscope
      exact ⟨old, _, hold, rfl⟩
    next => exact ⟨scope, scope.rootType, hscope, rfl⟩
  | varType id type =>
    refine hwhole.grow hextends
      (fun {_ scope} hscope => .inl ⟨scope, scope.rootType, hscope, rfl⟩)
      fun {var found} hfound => .inl ?_
    simp only [Array.getElem?_modify] at hfound
    split at hfound
    next =>
      obtain ⟨old, hold, rfl⟩ := Option.map_eq_some_iff.mp hfound
      exact ⟨old, _, hold, rfl⟩
    next => exact ⟨found, found.type, hfound, rfl⟩

theorem Built.whole {forest : Forest} (hbuilt : forest.Built) : forest.Whole := by
  refine hbuilt.of_changes (fun root => ?_) fun _ _ hchange => hchange.whole
  have hnone : Whole ⟨.initial, #[], #[]⟩ := by constructor <;> simp
  apply push_whole hnone
  apply regular_unbuilt none (fun _ => rfl)
  · simp
  · simp

/-! ## Well-formedness -/

/-- A root of unreachable code, on which nothing hangs. -/
structure CutOff (forest : Forest) (id : ScopeId) (scope : Scope) : Prop where
  kind : scope.kind = .bottom
  parent : scope.parent? = none
  depth : scope.depth = 0
  declared : scope.declared = #[]
  index : scope.index = ∅
  reserved : scope.reserved = ∅
  childless : ∀ {child inner}, forest.scope child = .ok inner → inner.parent? ≠ some id

structure Nested (forest : Forest) (id : ScopeId) (scope : Scope) (parent : ScopeId)
    (around : Scope) : Prop where
  kind : scope.kind.isRoot = false
  inside : scope.parent? = some parent
  known : forest.scope parent = .ok around
  live : around.kind ≠ .bottom
  older : parent.raw < id.raw
  depth : scope.depth = around.depth + 1
  outer : scope.outer = parent :: around.outer
  root : scope.root ≠ around.root

structure Declares (forest : Forest) (id : ScopeId) (scope : Scope) (own : List Variable) :
    Prop where
  all : forest.variablesOf id = .ok own
  ids : own.map (·.id) = scope.declared.toList
  ordinals : own.map (·.ordinal) = List.range own.length
  increasing : own.Pairwise fun first second => first.id.raw < second.id.raw
  distinct : own.Pairwise fun first second => first.name ≠ second.name
  named : ∀ found ∈ own, found.scope = id ∧ found.name ≠ .empty
  index : ∀ name var, scope.index[name]? = some var ↔
    ∃ found ∈ own, found.name = name ∧ found.id = var

/-- What holds of a forest at all times. -/
structure WellFormed (forest : Forest) : Prop where
  global : ∃ scope, forest.scope Forest.global = .ok scope ∧ scope.parent? = none ∧
    scope.depth = 0
  global_iff : ∀ {id scope}, forest.scope id = .ok scope →
    (scope.kind = .global ↔ id = Forest.global)
  placed : ∀ {id scope}, forest.scope id = .ok scope → id ≠ Forest.global →
    forest.CutOff id scope ∨ ∃ parent around, forest.Nested id scope parent around
  declares : ∀ {id scope}, forest.scope id = .ok scope →
    ∃ own, forest.Declares id scope own
  /-- A variable stands in one place, which is the place that it says. -/
  registered : ∀ {var found}, forest.var var = .ok found → found.id = var ∧
    ∃ scope, forest.scope found.scope = .ok scope ∧ ∀ {id other} {i : Nat},
      forest.scope id = .ok other →
        (other.declared[i]? = some var ↔ id = found.scope ∧ i = found.ordinal)
  reserved : ∀ {id scope name}, forest.scope id = .ok scope → name ∈ scope.reserved →
    (∃ text, forest.spelling name = .ok text ∧ isQualified text = false) ∧
      ∀ var, scope.index[name]? ≠ some var

theorem var_eq_ok_iff {var : VarId} {found : Variable} :
    forest.var var = .ok found ↔ forest.vars[var.raw]? = some found := by
  unfold Forest.var
  split <;> simp_all

theorem Regular.variablesOf_spec {scope : Scope} (hregular : forest.Regular id scope)
    (hscope : forest.scope id = .ok scope) :
    ∃ own, forest.variablesOf id = .ok own ∧
      own.length = scope.declared.size ∧ ∀ {i : Nat} {found}, own[i]? = some found →
        scope.declared[i]? = some found.id ∧ forest.vars[found.id.raw]? = some found ∧
          found.scope = id ∧ found.ordinal = i ∧ found.name ≠ .empty := by
  have hvars : ∀ var ∈ scope.declared.toList, ∃ found, forest.var var = .ok found := by
    intro var hvar
    obtain ⟨i, hi⟩ := List.mem_iff_getElem?.mp hvar
    obtain ⟨found, hfound, _⟩ := hregular.entry (by simpa using hi)
    exact ⟨found, var_eq_ok_iff.mpr hfound⟩
  obtain ⟨own, hall⟩ := Except.exists_mapM hvars
  obtain ⟨hlength, heach⟩ := List.forall₂_iff_get.mp (Except.mapM_eq_ok_iff.mp hall)
  simp only [Array.length_toList, List.get_eq_getElem, Array.getElem_toList] at hlength heach
  refine ⟨own, by rw [variablesOf, hscope, Except.ok_bind, hall], hlength.symm,
    fun {i found} hfound => ?_⟩
  obtain ⟨hi, rfl⟩ := List.getElem?_eq_some_iff.mp hfound
  have hlt : i < scope.declared.size := by omega
  have hvar := var_eq_ok_iff.mp (heach i hlt hi)
  have hentry := Array.getElem?_eq_getElem hlt
  obtain ⟨found, hfound, hid, hfacts⟩ := hregular.entry hentry
  obtain rfl := Option.some.inj (hvar.symm.trans hfound)
  rw [hid]
  exact ⟨hentry, hfound, hfacts⟩

theorem Whole.exists_declares (hwhole : forest.Whole) (hsound : forest.Sound)
    (hlisted : forest.Listed) {scope : Scope} (hscope : forest.scope id = .ok scope) :
    ∃ own, forest.Declares id scope own := by
  have hget := scope_eq_ok_iff.mp hscope
  have hregular := hwhole.scopes hget
  obtain ⟨own, hall, hlength, heach⟩ := hregular.variablesOf_spec hscope
  have hids : own.map (·.id) = scope.declared.toList := by
    apply List.ext_getElem?
    intro i
    have hplace : scope.declared.toList[i]? = scope.declared[i]? := Array.getElem?_toList
    rw [List.getElem?_map, hplace]
    cases hfound : own[i]? with
    | some found => rw [(heach hfound).1, Option.map_some]
    | none =>
      rw [List.getElem?_eq_none_iff] at hfound
      rw [Array.getElem?_eq_none (by omega), Option.map_none]
  have hmem : ∀ {found}, found ∈ own → found.scope = id ∧ found.name ≠ .empty ∧
      scope.index[found.name]? = some found.id := by
    intro found hfound
    obtain ⟨i, hi⟩ := List.mem_iff_getElem?.mp hfound
    obtain ⟨hentry, hvar, hin, _, hname⟩ := heach hi
    obtain ⟨found', hvar', hindex⟩ := hlisted.indexed hget (Array.mem_of_getElem? hentry)
    obtain rfl := Option.some.inj (hvar.symm.trans hvar')
    exact ⟨hin, hname, hindex⟩
  have hincreasing : own.Pairwise fun first second => first.id.raw < second.id.raw := by
    rw [← List.pairwise_map (f := Variable.id) (R := fun a b => a.raw < b.raw), hids]
    exact hregular.increasing
  refine ⟨own, hall, hids, ?_, hincreasing, ?_, fun found hfound => ?_, fun name var => ?_⟩
  · apply List.ext_getElem?
    intro i
    rw [List.getElem?_map]
    cases hfound : own[i]? with
    | some found =>
      have hi := (List.getElem?_eq_some_iff.mp hfound).1
      rw [List.getElem?_range hi, Option.map_some, (heach hfound).2.2.2.1]
    | none =>
      rw [List.getElem?_eq_none_iff] at hfound
      rw [List.getElem?_eq_none (by simpa using hfound), Option.map_none]
  · -- Variables of one name would be the same entry of the index.
    apply hincreasing.imp_of_mem
    intro first second hfirst hsecond hlt hsame
    have hfirst := (hmem hfirst).2.2
    rw [hsame, (hmem hsecond).2.2] at hfirst
    rw [Option.some.inj hfirst] at hlt
    exact Nat.lt_irrefl _ hlt
  · exact ⟨(hmem hfound).1, (hmem hfound).2.1⟩
  · constructor
    · intro hvar
      have hlist := Array.mem_toList_iff.mpr (hlisted.listed hget hvar)
      rw [← hids, List.mem_map] at hlist
      obtain ⟨found, hfound, rfl⟩ := hlist
      obtain ⟨i, hi⟩ := List.mem_iff_getElem?.mp hfound
      obtain ⟨found', hvar', _, hname⟩ := hsound.declared hget hvar
      obtain rfl := Option.some.inj ((heach hi).2.1.symm.trans hvar')
      exact ⟨found, hfound, hname, rfl⟩
    · rintro ⟨found, hfound, rfl, rfl⟩
      exact (hmem hfound).2.2

theorem Whole.placed (hwhole : forest.Whole) (hsound : forest.Sound) {scope : Scope}
    (hscope : forest.scope id = .ok scope) (hid : id ≠ Forest.global) :
    forest.CutOff id scope ∨ ∃ parent around, forest.Nested id scope parent around := by
  have hget := scope_eq_ok_iff.mp hscope
  have hregular := hwhole.scopes hget
  cases houter : scope.outer with
  | nil =>
    have hdead := (hsound.root hget houter).resolve_right hid
    obtain ⟨hdeclared, hindex, hreserved⟩ := hregular.dead hdead
    refine .inl ⟨hdead, by simp [Scope.parent?, houter], by simp [Scope.depth, houter], hdeclared,
      hindex, hreserved, fun {child inner} hinner hparent => ?_⟩
    obtain ⟨path, hpath⟩ := List.head?_eq_some_iff.mp hparent
    obtain ⟨_, _, around, haround, hlive, _⟩ :=
      hsound.inner (scope_eq_ok_iff.mp hinner) hpath
    rw [Option.some.inj (haround.symm.trans hget)] at hlive
    exact hlive hdead
  | cons parent path =>
    obtain ⟨hkind, hlt, around, haround, hlive, hpath⟩ := hsound.inner hget houter
    obtain ⟨around', haround', hroot⟩ := hregular.root houter
    obtain rfl := Option.some.inj (haround.symm.trans haround')
    refine .inr ⟨parent, around, hkind, by simp [Scope.parent?, houter],
      scope_eq_ok_iff.mpr haround, hlive, hlt, ?_, by rw [houter, hpath], hroot.symm⟩
    simp [Scope.depth, houter, hpath]

theorem Built.wellFormed (hbuilt : forest.Built) : forest.WellFormed := by
  have hsound := hbuilt.sound
  have hwhole := hbuilt.whole
  obtain ⟨first, hfirst, hkind⟩ := hsound.global
  have houter : first.outer = [] :=
    (hsound.outer_eq_nil_iff (a := Forest.global) hfirst).mpr (.inl hkind)
  constructor
  · refine ⟨first, scope_eq_ok_iff.mpr hfirst, ?_, ?_⟩
    · simp [Scope.parent?, houter]
    · simp [Scope.depth, houter]
  · intro id scope hscope
    constructor
    · intro hglobal
      by_contra hid
      rcases hwhole.placed hsound hscope hid with hcut | ⟨parent, around, hnested⟩
      · simp [hcut.kind] at hglobal
      · have hinner := hnested.kind
        simp [hglobal, Scope.Kind.isRoot] at hinner
    · rintro rfl
      rw [← Option.some.inj (hfirst.symm.trans (scope_eq_ok_iff.mp hscope)), hkind]
  · exact hwhole.placed hsound
  · exact hwhole.exists_declares hsound hbuilt.listed
  · intro var found hfound
    obtain ⟨hid, scope, hscope, hplace⟩ := hwhole.vars (var_eq_ok_iff.mp hfound)
    refine ⟨hid, scope, scope_eq_ok_iff.mpr hscope, fun {id other i} hother => ?_⟩
    constructor
    · intro hvar
      obtain ⟨found', hfound', _, hin, hordinal, _⟩ :=
        (hwhole.scopes (scope_eq_ok_iff.mp hother)).entry hvar
      obtain rfl := Option.some.inj ((var_eq_ok_iff.mp hfound).symm.trans hfound')
      exact ⟨hin.symm, hordinal.symm⟩
    · rintro ⟨rfl, rfl⟩
      rw [← Option.some.inj (hscope.symm.trans (scope_eq_ok_iff.mp hother)), hplace]
  · intro id scope name hscope hname
    have hregular := hwhole.scopes (scope_eq_ok_iff.mp hscope)
    obtain ⟨⟨text, htext, hplain⟩, hfree⟩ := hregular.reserved hname
    refine ⟨⟨text, by rw [spelling, htext], hplain⟩, fun var hvar => hfree ?_⟩
    rw [Std.ExtTreeMap.mem_iff_isSome_getElem?, hvar]
    rfl

end FlowTyping.Forest
