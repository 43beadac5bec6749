import FlowTyping.Proofs.Forest.Meaning
import FlowTyping.Proofs.Name.Growth

/-!
# Later forests

A forest is built further by adding scopes, variables and names. What is there keeps its place: of a
scope only the root type changes, the reserved names that are left, and the variables, which are
added at the end, and of a variable only the type.
-/
namespace FlowTyping

/-- A scope at a later time. As the scopes around it stay, so do its parent and its depth. -/
structure Scope.Extends (now scope : Scope) : Prop where
  outer : now.outer = scope.outer
  kind : now.kind = scope.kind
  root : now.root = scope.root
  module : now.module = scope.module
  declared : scope.declared.toList <+: now.declared.toList
  reserved : ∀ name ∈ now.reserved, name ∈ scope.reserved

theorem Scope.Extends.refl (scope : Scope) : scope.Extends scope :=
  ⟨rfl, rfl, rfl, rfl, List.prefix_refl _, fun _ hname => hname⟩

theorem Scope.Extends.trans {later now scope : Scope} (hlater : later.Extends now)
    (hnow : now.Extends scope) : later.Extends scope where
  outer := hlater.outer.trans hnow.outer
  kind := hlater.kind.trans hnow.kind
  root := hlater.root.trans hnow.root
  module := hlater.module.trans hnow.module
  declared := hnow.declared.trans hlater.declared
  reserved name hname := hnow.reserved name (hlater.reserved name hname)

theorem Scope.Extends.getElem?_declared {now scope : Scope} (hnow : now.Extends scope) {i : Nat}
    {var : VarId} (hvar : scope.declared[i]? = some var) : now.declared[i]? = some var := by
  rw [← Array.getElem?_toList] at hvar ⊢
  obtain ⟨hlt, _⟩ := List.getElem?_eq_some_iff.mp hvar
  rw [List.prefix_iff_getElem?.mp hnow.declared i hlt, ← List.getElem?_eq_getElem hlt, hvar]

namespace Forest

structure Extends (later forest : Forest) : Prop where
  names : ∀ {name text}, forest.names.spelling? name = some text →
    later.names.spelling? name = some text
  scopes : ∀ {i : Nat} {scope}, forest.scopes[i]? = some scope →
    ∃ now, later.scopes[i]? = some now ∧ now.Extends scope
  vars : ∀ {i : Nat} {found}, forest.vars[i]? = some found →
    ∃ type, later.vars[i]? = some { found with type := type }

theorem Extends.refl (forest : Forest) : forest.Extends forest where
  names htext := htext
  scopes {_ scope} hscope := ⟨scope, hscope, .refl scope⟩
  vars {_ found} hfound := ⟨found.type, hfound⟩

theorem Extends.trans {last later forest : Forest} (hlast : last.Extends later)
    (hlater : later.Extends forest) : last.Extends forest := by
  constructor
  · exact fun htext => hlast.names (hlater.names htext)
  · intro i scope hscope
    obtain ⟨now, hnow, hextends⟩ := hlater.scopes hscope
    obtain ⟨then', hthen, hextends'⟩ := hlast.scopes hnow
    exact ⟨then', hthen, hextends'.trans hextends⟩
  · intro i found hfound
    obtain ⟨type, hnow⟩ := hlater.vars hfound
    obtain ⟨type', hthen⟩ := hlast.vars hnow
    exact ⟨type', hthen⟩

variable {forest : Forest}

theorem Extends.simple {later : Forest} (hlater : later.Extends forest) {name : Name}
    (hsimple : forest.Simple name) : later.Simple name := by
  obtain ⟨text, htext, hplain⟩ := hsimple
  exact ⟨text, hlater.names htext, hplain⟩

theorem Extends.lt_size {later : Forest} (hlater : later.Extends forest) {a : ScopeId}
    (ha : a.raw < forest.scopes.size) : a.raw < later.scopes.size := by
  obtain ⟨now, hnow, _⟩ := hlater.scopes (Array.getElem?_eq_getElem ha)
  exact (Array.getElem?_eq_some_iff.mp hnow).1

/-- The path of a scope never changes. -/
theorem Extends.path {later : Forest} (hlater : later.Extends forest) {a : ScopeId}
    (ha : a.raw < forest.scopes.size) : later.path a = forest.path a := by
  have hscope := Array.getElem?_eq_getElem ha
  obtain ⟨now, hnow, hextends⟩ := hlater.scopes hscope
  rw [path_eq_cons hnow, path_eq_cons hscope, hextends.outer]

theorem push_extends (forest : Forest) (added : Scope) :
    (forest.push added).2.Extends forest where
  names htext := htext
  scopes {_ scope} hscope := ⟨scope, scopes_push_of_some hscope, .refl scope⟩
  vars {_ found} hfound := ⟨found.type, hfound⟩

/-- A scope that is modified in place may stand for the one before. -/
theorem exists_modify {scopes : Array Scope} {change : Scope → Scope}
    (hchange : ∀ scope, (change scope).Extends scope) (place : Nat) {i : Nat} {scope : Scope}
    (hscope : scopes[i]? = some scope) :
    ∃ now, (scopes.modify place change)[i]? = some now ∧ now.Extends scope := by
  rw [Array.getElem?_modify, hscope]
  split
  · exact ⟨change scope, rfl, hchange scope⟩
  · exact ⟨scope, rfl, .refl scope⟩

theorem enter_extends (forest : Forest) (id : ScopeId) (name : Name)
    (details : Variable.Details) (ordinal : Nat) :
    (forest.enter id name details ordinal).2.Extends forest where
  names htext := htext
  scopes hscope := by
    refine exists_modify (fun scope => ?_) id.raw hscope
    constructor <;> simp [Std.ExtTreeSet.mem_erase]
  vars {_ found} hfound := ⟨found.type, vars_enter_of_some hfound id name details ordinal⟩

theorem Change.extends {before after : Forest} (hchange : Change before after) :
    after.Extends before := by
  cases hchange with
  | name ref =>
    cases ref with
    | spelled text =>
      exact { Extends.refl before with
        names := fun htext => NameTable.spelling?_intern_of_some htext text }
    | numbered raw => exact .refl before
  | bottom root hroom => exact push_extends before _
  | scope module hadds => exact push_extends before _
  | declaration details hdeclares => exact enter_extends before _ _ details _
  | rootType id type =>
    refine { Extends.refl before with scopes := fun hscope => ?_ }
    refine exists_modify (fun scope => ?_) _ hscope
    exact { Scope.Extends.refl scope with }
  | varType id type =>
    refine { Extends.refl before with vars := fun {_ found} hfound => ?_ }
    simp only [Array.getElem?_modify, hfound]
    split
    · exact ⟨_, rfl⟩
    · exact ⟨found.type, rfl⟩

theorem extends_of_changes {later : Forest} (hchanges : Relation.ReflTransGen Change forest later) :
    later.Extends forest := by
  induction hchanges with
  | refl => exact .refl forest
  | tail _ hchange ih => exact hchange.extends.trans ih

end Forest
end FlowTyping
