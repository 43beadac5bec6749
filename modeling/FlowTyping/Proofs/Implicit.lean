import FlowTyping.Implicit
import FlowTyping.Proofs.Forest.Meaning
import FlowTyping.Proofs.TypeTable.Growth

/-!
# Implicit variables as forests and lattices grow

The names of implicit variables have a spelling in every forest. Their types are told by what a
lattice says about other types: a lattice that grows goes on saying so, and what could be told once
stays as it was.
-/
namespace FlowTyping
open TypeLattice
variable {Λ : Type} [TypeLattice Λ] {types later : Λ}

/-- What the one lattice answers about types, the other answers too. -/
structure TypeLattice.Keeps (types later : Λ) : Prop where
  has : ∀ trait type, Except.Le (has types trait type) (has later trait type)
  related : ∀ relation type, Except.Le (related types relation type) (related later relation type)

namespace TypeLattice

theorem Keeps.keepIf (hkeeps : Keeps types later) (trait : Trait) (slot : Option TypeId) :
    Except.Le (keepIf types trait slot) (keepIf later trait slot) := by
  cases slot with
  | none => exact .refl _
  | some type => exact (hkeeps.has trait type).bind fun _ => .refl _

theorem Keeps.relatedTo (hkeeps : Keeps types later) (relation : Relation)
    (slot : Option TypeId) :
    Except.Le (relatedTo types relation slot) (relatedTo later relation slot) := by
  cases slot with
  | none => exact .refl _
  | some type => exact hkeeps.related relation type

end TypeLattice

namespace Forest
variable {forest : Forest}

theorem Change.names_size_le {before after : Forest} (hchange : Change before after) :
    before.names.size ≤ after.names.size := by
  cases hchange with
  | name ref =>
    cases ref with
    | spelled text =>
      change before.names.size ≤ (before.names.intern text).2.size
      rw [NameTable.size_intern]
      split <;> omega
    | numbered raw => exact Nat.le_refl _
  | _ => exact Nat.le_refl _

theorem Built.preset_le (hbuilt : forest.Built) :
    NameTable.preset.length ≤ forest.names.size := by
  refine hbuilt.of_changes (fun root => ?_) fun _ _ hchange hle =>
    Nat.le_trans hle hchange.names_size_le
  change NameTable.preset.length ≤ NameTable.initial.size
  decide +kernel

/-- The names of implicit variables are spelled in every forest. -/
theorem Built.interned_implicit (hbuilt : forest.Built) (var : Implicit) :
    forest.Interned var.name := by
  have hpreset : var.name.raw < NameTable.preset.length := by cases var <;> decide
  exact ⟨_, Array.getElem?_eq_getElem (Nat.lt_of_lt_of_le hpreset hbuilt.preset_le)⟩

/-- The type that an implicit variable has in a scope as long as it is not refined; none if no scope
owns it. -/
def synthesizedType (forest : Forest) (types : Λ) (id : ScopeId) (var : Implicit) :
    Except Fault (Option TypeId) := do
  return (← forest.resolveImplicit types id var).bind (·.type)

theorem instancesType_le (hkeeps : Keeps types later) (id : ScopeId) (slot : Option TypeId) :
    Except.Le (instancesType types id slot) (instancesType later id slot) := by
  cases slot with
  | none => exact .refl _
  | some type => exact ((hkeeps.related .instances type).mapError _).bind fun _ => .refl _

theorem thisTypeOn_le (hkeeps : Keeps types later) (path : List ScopeId) :
    Except.Le (forest.thisTypeOn types path) (forest.thisTypeOn later path) := by
  induction path with
  | nil => exact .refl _
  | cons id outer ih =>
    -- A scope that leaves the answer to the scope around it has to have one.
    have houtward (kind : Scope.Kind) : Except.Le
        (do
          if outer.isEmpty then throw (.orphan kind id)
          forest.thisTypeOn types outer)
        (do
          if outer.isEmpty then throw (.orphan kind id)
          forest.thisTypeOn later outer) := by
      cases outer with
      | nil => exact .refl _
      | cons parent outer => exact ih
    refine (Except.Le.refl _).bind fun scope => ?_
    cases hkind : scope.kind with
    | global => exact (hkeeps.keepIf .isObject scope.rootType).mapError _
    | bottom => exact .refl _
    | staticBlock => exact .refl _
    | function arrow =>
      cases arrow with
      | false =>
        exact ((hkeeps.keepIf .isFunction scope.rootType).mapError _).bind fun receiver =>
          (hkeeps.relatedTo .receiver receiver).mapError _
      | true => exact houtward _
    | field isStatic =>
      cases isStatic with
      | true => exact .refl _
      | false => exact (Except.Le.refl _).bind fun slot => instancesType_le hkeeps id slot
    | block => exact houtward _
    | module => exact houtward _

theorem thisType_le (hkeeps : Keeps types later) (id : ScopeId) :
    Except.Le (forest.thisType types id) (forest.thisType later id) :=
  (Except.Le.refl _).bind fun path => thisTypeOn_le hkeeps path

theorem superType_le (hkeeps : Keeps types later) (this : Option TypeId) :
    Except.Le (superType types this) (superType later this) := by
  refine (hkeeps.keepIf .isObject this).bind fun receiver => ?_
  cases receiver with
  | none => exact .refl _
  | some receiver =>
    refine (hkeeps.has .isInstance receiver).bind fun isInstance => ?_
    cases isInstance with
    | true =>
      exact (hkeeps.related .superclass receiver).bind fun superclass =>
        hkeeps.relatedTo .instances superclass
    | false => exact hkeeps.related .prototype receiver

theorem implicitType_le (hkeeps : Keeps types later) (id : ScopeId) (var : Implicit) :
    Except.Le (forest.implicitType types id var) (forest.implicitType later id var) := by
  cases var with
  | this => exact thisType_le hkeeps id
  | super =>
    exact (thisType_le hkeeps id).bind fun this => (superType_le hkeeps this).mapError _
  | arguments => exact .refl _
  | exports => exact .refl _

theorem makeImplicit_le (hkeeps : Keeps types later) (id : ScopeId) (var : Implicit) :
    Except.Le (forest.makeImplicit types id var) (forest.makeImplicit later id var) := by
  refine (Except.Le.refl _).bind fun isGlobal => ?_
  split
  next => exact .refl _
  next => exact (implicitType_le hkeeps id var).bind fun _ => .refl _

/-- Once the type of an implicit variable can be told, a lattice that grows keeps to it. -/
theorem synthesizedType_le (hkeeps : Keeps types later) (id : ScopeId) (var : Implicit) :
    Except.Le (forest.synthesizedType types id var) (forest.synthesizedType later id var) := by
  refine ((Except.Le.refl _).bind fun owner => ?_).bind fun _ => .refl _
  cases owner with
  | none => exact .refl _
  | some owner => exact makeImplicit_le hkeeps owner var

end Forest

namespace TypeTable
variable {table later : TypeTable}

theorem Grows.shape (hgrows : table.Grows later) (type : TypeId) :
    Except.Le (table.shape type) (later.shape type) := by
  intro shape hshape
  unfold TypeTable.shape at hshape ⊢
  split at hshape
  next found hfound =>
    rw [hgrows _ _ hfound]
    exact hshape
  next => cases hshape

theorem Grows.related (hgrows : table.Grows later) (relation : Relation) (type : TypeId) :
    Except.Le (table.related relation type) (later.related relation type) := by
  refine (hgrows.shape type).bind fun shape => ?_
  cases relation <;> cases shape
  case superclass.instances constructor =>
    exact (hgrows.shape constructor).bind fun _ => .refl _
  all_goals exact .refl _

theorem Grows.keeps (hgrows : table.Grows later) : Keeps table later :=
  ⟨fun _ type => (hgrows.shape type).bind fun _ => .refl _, hgrows.related⟩

end TypeTable
end FlowTyping
