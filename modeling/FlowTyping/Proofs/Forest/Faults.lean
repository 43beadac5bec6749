import FlowTyping.Implicit
import FlowTyping.Proofs.Forest.Meaning

/-!
# Faults of questions about forests

What can go wrong where a name is looked for is that a handle has no entry. What can go wrong where
the type of `this` is looked for in a scope of the forest is less: the lattice does not know a type,
or a field belongs to a class whose type has no instances. All scopes but roots have a parent, so no
scope is found to be an orphan.
-/
namespace FlowTyping
open TypeLattice

/-- A handle without an entry in its table. -/
def Fault.IsLookup : Fault → Prop
  | .unknownScope _ _ | .missing _ _ => True
  | _ => False

variable {Λ : Type} [TypeLattice Λ]

/-- A type that the lattice fails on, in some question about some type. -/
def TypeLattice.FailsOn (types : Λ) (unknown : UnknownType) : Prop :=
  (∃ trait type, has types trait type = .error unknown) ∨
    ∃ relation type, related types relation type = .error unknown

namespace Forest
variable {forest : Forest} {types : Λ} {a id : ScopeId} {name : Name}

/-! ## Names -/

theorem scope_raises (forest : Forest) (id : ScopeId) :
    Except.Raises Fault.IsLookup (forest.scope id) := by
  unfold Forest.scope
  split
  · exact Except.raises_ok _
  · exact Except.raises_error trivial

theorem var_raises (forest : Forest) (id : VarId) :
    Except.Raises Fault.IsLookup (forest.var id) := by
  unfold Forest.var
  split
  · exact Except.raises_ok _
  · exact Except.raises_error trivial

theorem spelling_raises (forest : Forest) (name : Name) :
    Except.Raises Fault.IsLookup (forest.spelling name) := by
  unfold spelling
  split
  · exact Except.raises_ok _
  · exact Except.raises_error trivial

theorem ownVariable?_raises (forest : Forest) (id : ScopeId) (name : Name) :
    Except.Raises Fault.IsLookup (forest.ownVariable? id name) := by
  refine (scope_raises forest id).bind fun scope _ => ?_
  split
  · exact (var_raises forest _).bind fun _ _ => Except.raises_ok _
  · exact Except.raises_ok _

theorem declaredOn?_raises (forest : Forest) (name : Name) (path : List ScopeId) :
    Except.Raises Fault.IsLookup (forest.declaredOn? name path) := by
  induction path with
  | nil => exact Except.raises_ok _
  | cons id path ih =>
    refine (ownVariable?_raises forest id name).bind fun found _ => ?_
    cases found with
    | none => exact ih
    | some found => exact Except.raises_ok _

theorem rootOn?_raises (forest : Forest) (root : String) (path : List ScopeId) :
    Except.Raises Fault.IsLookup (forest.rootOn? root path) := by
  unfold rootOn?
  split
  · exact declaredOn?_raises forest _ path
  · exact Except.raises_ok _

/-- Where it cannot be told what a name means, a handle has no entry. -/
theorem resolve_raises (forest : Forest) (id : ScopeId) (name : Name) :
    Except.Raises Fault.IsLookup (forest.resolve id name) := by
  refine (ownVariable?_raises forest id name).bind fun found _ => ?_
  cases found with
  | some found => exact Except.raises_ok _
  | none =>
    refine (scope_raises forest id).bind fun scope _ => ?_
    cases scope.outer with
    | nil => exact Except.raises_ok _
    | cons parent outer =>
      refine (spelling_raises forest name).bind fun text _ => ?_
      cases rootIdentifier? text with
      | none => exact declaredOn?_raises forest name _
      | some root =>
        refine (rootOn?_raises forest root _).bind fun found _ => ?_
        cases found with
        | some found => exact ownVariable?_raises forest _ name
        | none => exact ownVariable?_raises forest _ name

theorem declaredType_raises (forest : Forest) (id : ScopeId) (name : Name) :
    Except.Raises Fault.IsLookup (forest.declaredType id name) :=
  (resolve_raises forest id name).bind fun _ _ => Except.raises_ok _

theorem declaringScope_raises (forest : Forest) (id : ScopeId) (name : Name) :
    Except.Raises Fault.IsLookup (forest.declaringScope id name) :=
  (resolve_raises forest id name).bind fun _ _ => Except.raises_ok _

theorem sameBinding_raises (forest : Forest) (source target : ScopeId) (name : Name) :
    Except.Raises Fault.IsLookup (forest.sameBinding source target name) := by
  unfold sameBinding
  split
  · exact Except.raises_ok _
  · exact (declaringScope_raises forest source name).bind fun _ _ =>
      (declaringScope_raises forest target name).bind fun _ _ => Except.raises_ok _

/-! ## Implicit variables -/

inductive ThisFault (forest : Forest) (types : Λ) (a : ScopeId) : Fault → Prop where
  | unknown {unknown : UnknownType} (hfails : FailsOn types unknown) :
    ThisFault forest types a unknown.fault
  | field {id parent : ScopeId} {scope around : Scope} {type : TypeId} (hid : id ∈ forest.path a)
    (hscope : forest.scopes[id.raw]? = some scope) (hkind : scope.kind = .field false)
    (hparent : scope.parent? = some parent) (haround : forest.scopes[parent.raw]? = some around)
    (htype : around.rootType = some type) (hnone : related types .instances type = .ok none) :
    ThisFault forest types a (.fieldOfNonClass id type)

theorem ThisFault.inward (hsound : forest.Sound) (hid : id ∈ forest.path a) {fault : Fault}
    (hfault : forest.ThisFault types id fault) : forest.ThisFault types a fault := by
  cases hfault with
  | unknown hfails => exact .unknown hfails
  | field hid' hscope hkind hparent haround htype hnone =>
    exact .field (hsound.mem_path_trans hid hid') hscope hkind hparent haround htype hnone

theorem ThisFault.ne_orphan {fault : Fault} (hfault : forest.ThisFault types a fault)
    (kind : Scope.Kind) (id : ScopeId) : fault ≠ .orphan kind id := by
  cases hfault <;> simp [UnknownType.fault]

theorem ThisFault.ne_synthesizedExports {fault : Fault} (hfault : forest.ThisFault types a fault) :
    fault ≠ .synthesizedExports := by
  cases hfault <;> simp [UnknownType.fault]

theorem keepIf_raises (types : Λ) (trait : Trait) (slot : Option TypeId) :
    Except.Raises (FailsOn types) (keepIf types trait slot) := by
  cases slot with
  | none => exact Except.raises_ok _
  | some type =>
    refine Except.Raises.bind (fun unknown hfails => ?_) fun _ _ => Except.raises_ok _
    exact .inl ⟨trait, type, hfails⟩

theorem related_raises (types : Λ) (relation : Relation) (type : TypeId) :
    Except.Raises (FailsOn types) (related types relation type) :=
  fun _ hfails => .inr ⟨relation, type, hfails⟩

theorem relatedTo_raises (types : Λ) (relation : Relation) (slot : Option TypeId) :
    Except.Raises (FailsOn types) (relatedTo types relation slot) := by
  cases slot with
  | none => exact Except.raises_ok _
  | some type => exact related_raises types relation type

/-- What the lattice raises is the first sort of fault. -/
theorem raises_unknown {α : Type} {answer : Except UnknownType α} (forest : Forest) (a : ScopeId)
    (hraises : Except.Raises (FailsOn types) answer) :
    Except.Raises (forest.ThisFault types a) (answer.mapError UnknownType.fault) :=
  hraises.mapError fun _ hfails => .unknown hfails

theorem instancesType_raises {kind : Fault → Prop} (slot : Option TypeId)
    (hunknown : ∀ unknown, FailsOn types unknown → kind unknown.fault)
    (hfield : ∀ type, slot = some type → related types .instances type = .ok none →
      kind (.fieldOfNonClass id type)) :
    Except.Raises kind (instancesType types id slot) := by
  cases slot with
  | none => exact Except.raises_ok _
  | some type =>
    refine Except.Raises.bind ((related_raises types .instances type).mapError hunknown) ?_
    intro instances hinstances
    cases instances with
    | some instances => exact Except.raises_ok _
    | none => exact Except.raises_error (hfield type rfl (Except.mapError_eq_ok_iff.mp hinstances))

/-- Every scope but a root has a parent, and a root is the global scope or a bottom. -/
theorem Sound.thisTypeOn_raises (hsound : forest.Sound) (types : Λ)
    (ha : a.raw < forest.scopes.size) :
    Except.Raises (forest.ThisFault types a) (forest.thisTypeOn types (forest.path a)) := by
  apply hsound.path_induction (motive := fun a =>
    Except.Raises (forest.ThisFault types a) (forest.thisTypeOn types (forest.path a))) ?_ ?_ ha
  · intro root hpath _
    obtain ⟨scope, hscope, houter⟩ := exists_scope_of_path hpath
    rw [hpath, thisTypeOn, scope_eq_ok_iff.mpr hscope, Except.ok_bind]
    rcases (hsound.outer_eq_nil_iff hscope).mp houter with hkind | hkind
    · rw [hkind]
      exact raises_unknown forest _ (keepIf_raises types _ _)
    · rw [hkind]
      exact Except.raises_ok _
  · intro inner parent _ hparent hpath ih
    obtain ⟨scope, hscope, houter⟩ := exists_scope_of_path hpath
    obtain ⟨around, haround, _⟩ := hparent
    rw [path_eq_cons haround] at houter hpath ih
    rw [hpath, thisTypeOn, scope_eq_ok_iff.mpr hscope, Except.ok_bind]
    have houtward : Except.Raises (forest.ThisFault types inner)
        (forest.thisTypeOn types (parent :: around.outer)) :=
      ih.mono fun fault hfault => hfault.inward hsound (by simp [hpath])
    have htype : ∀ kind, forest.parentType inner kind (parent :: around.outer) =
        .ok around.rootType := by
      intro kind
      rw [parentType, scope_eq_ok_iff.mpr haround]
      rfl
    cases hkind : scope.kind with
    | global => exact raises_unknown forest inner (keepIf_raises types _ _)
    | bottom => exact Except.raises_ok _
    | function arrow =>
      cases arrow with
      | true => exact houtward
      | false =>
        exact (raises_unknown forest inner (keepIf_raises types _ _)).bind fun receiver _ =>
          raises_unknown forest inner (relatedTo_raises types _ receiver)
    | block | module => exact houtward
    | staticBlock =>
      dsimp only
      rw [htype]
      exact Except.raises_ok _
    | field isStatic =>
      cases isStatic with
      | true =>
        dsimp only
        rw [htype]
        exact Except.raises_ok _
      | false =>
        dsimp only
        rw [htype, Except.ok_bind]
        refine instancesType_raises _ (fun _ hfails => .unknown hfails) fun type htype hnone => ?_
        refine .field ?_ hscope hkind ?_ haround htype hnone
        · rw [hpath]
          exact List.mem_cons_self
        · rw [Scope.parent?, houter]
          rfl

/-! ### The other implicit variables -/

theorem Sound.thisType_raises (hsound : forest.Sound) (types : Λ)
    (ha : a.raw < forest.scopes.size) :
    Except.Raises (forest.ThisFault types a) (forest.thisType types a) := by
  rw [thisType, ancestors_eq_path ha, Except.ok_bind]
  exact hsound.thisTypeOn_raises types ha

theorem superType_raises (types : Λ) (this : Option TypeId) :
    Except.Raises (FailsOn types) (superType types this) := by
  refine (keepIf_raises types .isObject this).bind fun receiver _ => ?_
  cases receiver with
  | none => exact Except.raises_ok _
  | some receiver =>
    refine Except.Raises.bind (fun _ hfails => .inl ⟨_, _, hfails⟩) fun isInstance _ => ?_
    cases isInstance with
    | true =>
      exact (related_raises types .superclass receiver).bind fun superclass _ =>
        relatedTo_raises types .instances superclass
    | false => exact related_raises types .prototype receiver

/-- The type of `arguments` is always told. -/
theorem Sound.exists_argumentsType (hsound : forest.Sound) (ha : a.raw < forest.scopes.size) :
    ∃ type, forest.argumentsType a = .ok type := by
  have hscope := Array.getElem?_eq_getElem ha
  have hlast : forest.scopes[a.raw].outer.getLastD a ∈ forest.path a := by
    rw [path_eq_cons hscope, List.getLastD_eq_getLast?]
    cases hlast : forest.scopes[a.raw].outer.getLast? with
    | none => exact List.mem_cons_self
    | some last => exact List.mem_cons_of_mem a (List.mem_of_getLast? hlast)
  rw [argumentsType, scope_eq_ok_iff.mpr hscope, Except.ok_bind]
  dsimp only
  rw [hsound.ownVariable?_eq (hsound.mem_path_facts hlast).1, Except.ok_bind]
  split <;> exact ⟨_, rfl⟩

theorem Sound.makeImplicit_raises (hsound : forest.Sound) (types : Λ)
    (ha : a.raw < forest.scopes.size) (var : Implicit) :
    Except.Raises (forest.ThisFault types a) (forest.makeImplicit types a var) := by
  have hglobal : forest.isGlobal a = .ok (decide (forest.scopes[a.raw].kind = .global)) := by
    rw [isGlobal, scope_eq_ok_iff.mpr (Array.getElem?_eq_getElem ha)]
    rfl
  rw [makeImplicit, hglobal, Except.ok_bind]
  split
  · exact Except.raises_ok _
  next hmade =>
    refine Except.Raises.bind ?_ fun _ _ => Except.raises_ok _
    cases var with
    | this => exact hsound.thisType_raises types ha
    | super =>
      exact (hsound.thisType_raises types ha).bind fun this _ =>
        raises_unknown forest a (superType_raises types this)
    | arguments =>
      obtain ⟨type, htype⟩ := hsound.exists_argumentsType ha
      rw [implicitType, htype]
      exact Except.raises_ok _
    | exports => simp at hmade

/-- An implicit variable is made in a scope on the path, so it fails where this one may. -/
theorem Sound.resolveImplicit_raises (hsound : forest.Sound) (types : Λ)
    (ha : a.raw < forest.scopes.size) (var : Implicit) :
    Except.Raises (forest.ThisFault types a) (forest.resolveImplicit types a var) := by
  rw [resolveImplicit, hsound.nearest_eq ha, Except.ok_bind]
  cases howner : (forest.path a).find? fun id =>
      (forest.scopes[id.raw]?).any fun scope => var.isMadeBy scope.kind with
  | none => exact Except.raises_ok _
  | some owner =>
    have hmem := List.mem_of_find?_eq_some howner
    have hmade := hsound.makeImplicit_raises types (hsound.mem_path_facts hmem).1 var
    exact hmade.mono fun fault hfault => hfault.inward hsound hmem

/-- In a scope that the forest does not have, no implicit variable is looked for. -/
theorem unknown_implicit (ha : ¬a.raw < forest.scopes.size) (types : Λ) (var : Implicit) :
    forest.makeImplicit types a var = .error (.unknownScope a forest.scopes.size) ∧
      forest.resolveImplicit types a var = .error (.unknownScope a forest.scopes.size) := by
  have hscope : forest.scope a = .error (.unknownScope a forest.scopes.size) := by
    rw [Forest.scope, Array.getElem?_eq_none (Nat.le_of_not_lt ha)]
  constructor
  · rw [makeImplicit, isGlobal, hscope]
    rfl
  · rw [resolveImplicit, nearest, ancestors, hscope]
    rfl

end Forest
end FlowTyping
