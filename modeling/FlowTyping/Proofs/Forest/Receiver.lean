import FlowTyping.Implicit
import FlowTyping.Proofs.Forest.Meaning
import FlowTyping.TypeLattice.Structural

/-!
# Where the receiver comes from

The type of `this` is asked for outwards, as long as the kind of a scope leaves the answer to the
scope around it. The owner of `this` is looked for along the path, by a table of the kinds that make
it. The table leaves out just the kinds that ask outwards and those of roots. So both ways end in
the same scope, or the owner is missing where the type is that of a root.
-/
namespace FlowTyping
open TypeLattice

def Variable.externType? (var : Variable) : Option TypeId :=
  if var.isExtern then var.type else none

/-- Whether scopes of a kind share `this` and `super` with the scope around them. -/
def Scope.Kind.isTransparent : Scope.Kind → Bool
  | .function true | .block | .module => true
  | _ => false

theorem Scope.Kind.isTransparent_iff {kind : Scope.Kind} :
    kind.isTransparent = true ↔ kind = .function true ∨ kind = .block ∨ kind = .module := by
  cases kind with
  | function arrow => cases arrow <;> simp [isTransparent]
  | _ => simp [isTransparent]

namespace Implicit
variable {var : Implicit} {kind : Scope.Kind}

def IsReceiver : Implicit → Prop
  | this | super => True
  | _ => False

theorem isReceiver_this : this.IsReceiver := trivial

theorem isReceiver_super : super.IsReceiver := trivial

theorem IsReceiver.isMadeBy_eq (hvar : var.IsReceiver) (kind : Scope.Kind) :
    var.isMadeBy kind = (!kind.isTransparent && !kind.isRoot) := by
  cases var with
  | this | super =>
    cases kind with
    | function arrow => cases arrow <;> rfl
    | _ => rfl
  | arguments | exports => exact hvar.elim

theorem isMadeBy_arguments (kind : Scope.Kind) :
    arguments.isMadeBy kind = decide (kind = .function false) := by
  cases kind with
  | function arrow => cases arrow <;> rfl
  | _ => rfl

theorem isMadeBy_exports (kind : Scope.Kind) : exports.isMadeBy kind = false := by
  cases kind <;> rfl

theorem ne_exports_of_isMadeBy (hmade : var.isMadeBy kind = true) : var ≠ exports := by
  rintro rfl
  rw [isMadeBy_exports] at hmade
  cases hmade

theorem ne_global_of_isMadeBy (hmade : var.isMadeBy kind = true) : kind ≠ .global := by
  rintro rfl
  cases var <;> cases hmade

end Implicit

namespace Forest
variable {Λ : Type} [TypeLattice Λ] {forest : Forest} {types : Λ} {a id owner : ScopeId}
  {scope : Scope} {var : Implicit} {has : Scope → Bool}

/-- The receiver in a scope is that of an owner: the scope itself, unless it is transparent, or else
the owner for the scope around it. -/
inductive ReceiverOf (forest : Forest) : ScopeId → ScopeId → Prop where
  | self {id : ScopeId} {scope : Scope} (hscope : forest.scopes[id.raw]? = some scope)
    (hkind : scope.kind.isTransparent = false) : ReceiverOf forest id id
  | outward {id parent owner : ScopeId} {scope : Scope}
    (hscope : forest.scopes[id.raw]? = some scope) (hkind : scope.kind.isTransparent = true)
    (houter : scope.outer = forest.path parent) (hparent : ReceiverOf forest parent owner) :
    ReceiverOf forest id owner

/-- Roots are not transparent, so every scope has an owner of its receiver. -/
theorem Sound.exists_receiverOf (hsound : forest.Sound) (ha : a.raw < forest.scopes.size) :
    ∃ owner, forest.ReceiverOf a owner := by
  apply hsound.path_induction (motive := fun a => ∃ owner, forest.ReceiverOf a owner) ?_ ?_ ha
  · intro root hpath _
    obtain ⟨scope, hscope, houter⟩ := exists_scope_of_path hpath
    refine ⟨root, .self hscope ?_⟩
    rcases (hsound.outer_eq_nil_iff hscope).mp houter with hkind | hkind
    · rw [hkind]
      rfl
    · rw [hkind]
      rfl
  · intro inner parent _ _ hpath hparent
    obtain ⟨scope, hscope, houter⟩ := exists_scope_of_path hpath
    obtain ⟨owner, howner⟩ := hparent
    cases hkind : scope.kind.isTransparent with
    | true => exact ⟨owner, .outward hscope hkind houter howner⟩
    | false => exact ⟨inner, .self hscope hkind⟩

theorem ReceiverOf.exists_scope (hreceiver : forest.ReceiverOf a owner) :
    ∃ scope, forest.scopes[owner.raw]? = some scope ∧ scope.kind.isTransparent = false := by
  induction hreceiver with
  | self hscope hkind => exact ⟨_, hscope, hkind⟩
  | outward _ _ _ _ ih => exact ih

theorem ReceiverOf.lt_size (hreceiver : forest.ReceiverOf a owner) :
    a.raw < forest.scopes.size := by
  cases hreceiver with
  | self hscope | outward hscope => exact (Array.getElem?_eq_some_iff.mp hscope).1

/-! ## Searches -/

theorem nearest_eq_ite (hscope : forest.scopes[id.raw]? = some scope) (has : Scope → Bool) :
    forest.nearest has id =
      if has scope then .ok (some id) else forest.nearestOn has scope.outer := by
  rw [nearest, ancestors_of_scope hscope, Except.ok_bind, nearestOn, scope_eq_ok_iff.mpr hscope,
    Except.ok_bind]
  rfl

/-- What transparent scopes do not have is found from the owner of the receiver as well. -/
theorem ReceiverOf.nearest_eq (hreceiver : forest.ReceiverOf a owner)
    (hhas : ∀ scope : Scope, scope.kind.isTransparent = true → has scope = false) :
    forest.nearest has a = forest.nearest has owner := by
  induction hreceiver with
  | self => rfl
  | outward hscope hkind houter hparent ih =>
    rw [nearest_eq_ite hscope, hhas _ hkind, houter, ← ih, nearest,
      ancestors_eq_path hparent.lt_size]
    rfl

theorem ReceiverOf.thisType_eq (hreceiver : forest.ReceiverOf a owner) (types : Λ) :
    forest.thisType types a = forest.thisType types owner := by
  induction hreceiver with
  | self => rfl
  | @outward id parent owner scope hscope hkind houter hparent ih =>
    -- A transparent scope has a scope around it, so the question finds no orphan.
    have hnonempty : (forest.path parent).isEmpty = false := by
      rw [path_eq_cons (Array.getElem?_eq_getElem hparent.lt_size)]
      rfl
    rw [← ih, thisType, thisType, ancestors_of_scope hscope, ancestors_eq_path hparent.lt_size,
      Except.ok_bind, Except.ok_bind, thisTypeOn, scope_eq_ok_iff.mpr hscope, Except.ok_bind, houter]
    rcases Scope.Kind.isTransparent_iff.mp hkind with hkind | hkind | hkind <;>
    · rw [hkind]
      simp only [hnonempty]
      rfl

/-! ## Implicit variables -/

/-- The nearest scope that makes an implicit variable owns it, with the type that it has there. -/
theorem resolveImplicit_of_nearest (hscope : forest.scopes[owner.raw]? = some scope)
    (hmade : var.isMadeBy scope.kind = true)
    (hnearest : forest.nearest (fun scope => var.isMadeBy scope.kind) a = .ok (some owner)) :
    forest.resolveImplicit types a var =
      (fun type => some ⟨var, owner, type⟩) <$> forest.implicitType types owner var := by
  have hglobal : forest.isGlobal owner = .ok false := by
    rw [isGlobal, scope_eq_ok_iff.mpr hscope, Except.ok_bind,
      decide_eq_false (Implicit.ne_global_of_isMadeBy hmade)]
    rfl
  rw [resolveImplicit, hnearest, Except.ok_bind]
  dsimp only
  rw [makeImplicit, hglobal, Except.ok_bind,
    if_neg (by simp [Implicit.ne_exports_of_isMadeBy hmade])]
  rfl

/-- `this` and `super` are made by the owner of the receiver, unless this is a root. -/
theorem ReceiverOf.resolveImplicit_eq (hsound : forest.Sound)
    (hreceiver : forest.ReceiverOf a owner) (hscope : forest.scopes[owner.raw]? = some scope)
    (hvar : var.IsReceiver) (types : Λ) :
    forest.resolveImplicit types a var =
      if scope.kind.isRoot then .ok none
      else (fun type => some ⟨var, owner, type⟩) <$> forest.implicitType types owner var := by
  have hnearest : forest.nearest (fun scope => var.isMadeBy scope.kind) a =
      forest.nearest (fun scope => var.isMadeBy scope.kind) owner :=
    hreceiver.nearest_eq fun scope hkind => by rw [hvar.isMadeBy_eq, hkind]; rfl
  rw [nearest_eq_ite hscope] at hnearest
  obtain ⟨owned, howned, hclosed⟩ := hreceiver.exists_scope
  obtain rfl := Option.some.inj (hscope.symm.trans howned)
  have hmade := hvar.isMadeBy_eq scope.kind
  rw [hclosed] at hmade
  cases hroot : scope.kind.isRoot with
  | true =>
    have houter := (hsound.outer_eq_nil_iff hscope).mpr (Scope.Kind.isRoot_iff.mp hroot)
    rw [hroot] at hmade
    rw [hmade, houter] at hnearest
    rw [resolveImplicit, hnearest]
    rfl
  | false =>
    rw [hroot] at hmade
    rw [hmade] at hnearest
    rw [resolveImplicit_of_nearest hscope hmade hnearest]
    rfl

/-- A path that does not start at a bottom ends in the global scope. -/
theorem Sound.argumentsType_eq (hsound : forest.Sound) (ha : forest.Live a)
    {global? : Option Variable}
    (hglobal : forest.ownVariable? Forest.global .arguments = .ok global?) :
    forest.argumentsType a = .ok (global?.bind (·.externType?)) := by
  have hlast := (hsound.getLast?_path ha.lt_size).resolve_right fun hdead => hdead.2 ha
  obtain ⟨scope, hscope, _⟩ := ha
  rw [path_eq_cons hscope, List.getLast?_cons, Option.some.injEq, ← List.getLastD_eq_getLast?]
    at hlast
  rw [argumentsType, scope_eq_ok_iff.mpr hscope, Except.ok_bind]
  dsimp only
  rw [hlast, hglobal, Except.ok_bind]
  cases global? <;> rfl

/-- `arguments` belongs to the innermost function that is no arrow function, and what it is, is said
once for all functions. -/
theorem Sound.resolveImplicit_arguments (hsound : forest.Sound) (ha : a.raw < forest.scopes.size)
    (types : Λ) {global? : Option Variable}
    (hglobal : forest.ownVariable? Forest.global .arguments = .ok global?) :
    ∃ function?, forest.nearest (fun scope => scope.kind = .function false) a = .ok function? ∧
      forest.resolveImplicit types a .arguments = .ok (function?.map fun id =>
        ⟨.arguments, id, global?.bind (·.externType?)⟩) := by
  have hnearest := hsound.nearest_eq ha fun scope => scope.kind = .function false
  refine ⟨_, hnearest, ?_⟩
  have htable : (fun scope : Scope => decide (scope.kind = .function false)) =
      fun scope => Implicit.arguments.isMadeBy scope.kind :=
    funext fun scope => (Implicit.isMadeBy_arguments scope.kind).symm
  cases hfound : (forest.path a).find? fun id =>
      (forest.scopes[id.raw]?).any fun scope => decide (scope.kind = .function false) with
  | none =>
    rw [hfound, htable] at hnearest
    rw [resolveImplicit, hnearest]
    rfl
  | some owner =>
    rw [hfound, htable] at hnearest
    have howner := List.find?_some hfound
    obtain ⟨scope, hscope, hkind⟩ := (Option.any_eq_true _ _).mp howner
    have hkind := of_decide_eq_true hkind
    have hlive : forest.Live owner := ⟨scope, hscope, by rw [hkind]; exact Scope.Kind.noConfusion⟩
    rw [resolveImplicit_of_nearest hscope (by rw [hkind]; rfl) hnearest, implicitType,
      hsound.argumentsType_eq hlive hglobal]
    rfl

theorem Sound.resolveImplicit_exports (hsound : forest.Sound) (ha : a.raw < forest.scopes.size)
    (types : Λ) : forest.resolveImplicit types a .exports = .ok none := by
  have hnone : (forest.path a).find? (fun id =>
      (forest.scopes[id.raw]?).any fun scope => Implicit.exports.isMadeBy scope.kind) = none := by
    refine List.find?_eq_none.mpr fun id _ => ?_
    simp [Implicit.isMadeBy_exports]
  rw [resolveImplicit, hsound.nearest_eq ha, hnone]
  rfl

/-- Asking outwards for the type of `this` and looking for its owner end in the same scope. If it is
a root, there is no owner. Otherwise the owner makes `this` with the type that was asked for, or
fails alike. -/
theorem Built.resolveImplicit_agrees_thisType (hbuilt : forest.Built)
    (ha : a.raw < forest.scopes.size) (types : Λ) :
    (∃ owner scope,
      forest.nearest (fun scope => !scope.kind.isTransparent) a = .ok (some owner) ∧
      forest.scope owner = .ok scope ∧
      forest.thisType types a = forest.thisType types owner ∧
      if scope.kind = .global ∨ scope.kind = .bottom then
        forest.resolveImplicit types a .this = .ok none ∧
        forest.resolveImplicit types a .super = .ok none
      else
        forest.resolveImplicit types a .this =
          (fun type => some ⟨.this, owner, type⟩) <$> forest.thisType types a ∧
        forest.resolveImplicit types a .super =
          (fun type => some ⟨.super, owner, type⟩) <$> forest.implicitType types a .super) ∧
    (∃ function? global?,
      forest.nearest (fun scope => scope.kind = .function false) a = .ok function? ∧
      forest.ownVariable? Forest.global .arguments = .ok global? ∧
      forest.resolveImplicit types a .arguments = .ok (function?.map fun id =>
        ⟨.arguments, id, global?.bind (·.externType?)⟩)) ∧
    forest.resolveImplicit types a .exports = .ok none := by
  have hsound := hbuilt.sound
  refine ⟨?_, ?_, hsound.resolveImplicit_exports ha types⟩
  · obtain ⟨owner, hreceiver⟩ := hsound.exists_receiverOf ha
    obtain ⟨scope, hscope, hclosed⟩ := hreceiver.exists_scope
    have hthis := hreceiver.thisType_eq types
    have hsuper : forest.implicitType types a .super = forest.implicitType types owner .super := by
      rw [implicitType, implicitType, hthis]
    refine ⟨owner, scope, ?_, scope_eq_ok_iff.mpr hscope, hthis, ?_⟩
    · rw [hreceiver.nearest_eq fun scope hkind => by rw [hkind]; rfl]
      rw [nearest_eq_ite hscope, hclosed]
      rfl
    · simp only [← Scope.Kind.isRoot_iff]
      rw [hreceiver.resolveImplicit_eq hsound hscope Implicit.isReceiver_this,
        hreceiver.resolveImplicit_eq hsound hscope Implicit.isReceiver_super, hsuper, hthis]
      split
      · exact ⟨rfl, rfl⟩
      · exact ⟨rfl, rfl⟩
  · obtain ⟨around, haround, _⟩ := hsound.global
    have hglobal := hsound.ownVariable?_eq (a := Forest.global)
      (Array.getElem?_eq_some_iff.mp haround).1 .arguments
    obtain ⟨function?, hfunction, harguments⟩ := hsound.resolveImplicit_arguments ha types hglobal
    exact ⟨function?, _, hfunction, hglobal, harguments⟩

/-- An arrow function with a block in it, in a static field of a class that is declared in a method.
An extern unit says what `arguments` is. -/
private def classInMethod : Forest :=
  (Forest.ofRoot .initial ⟨0⟩).after
    [.declare ⟨0⟩ (.spelled "arguments") ⟨none, some ⟨1⟩, some ⟨⟨0⟩, true⟩, false⟩,
      .addScope ⟨0⟩ ⟨1⟩ (.function false) [] none, .addScope ⟨1⟩ ⟨2⟩ .block [] none,
      .setRootType ⟨2⟩ (some ⟨4⟩), .addScope ⟨2⟩ ⟨3⟩ (.field true) [] none,
      .addScope ⟨3⟩ ⟨4⟩ (.function true) [] none, .addScope ⟨4⟩ ⟨5⟩ .block [] none]

private def classTypes : TypeTable := (TypeTable.basic.object (some ⟨0⟩)).2

theorem resolveImplicit_agrees_thisType_of_field :
    classInMethod.Built ∧ 5 < classInMethod.scopes.size ∧
    classInMethod.thisType classTypes ⟨5⟩ = classInMethod.thisType classTypes ⟨3⟩ ∧
    classInMethod.resolveImplicit classTypes ⟨5⟩ .this = .ok (some ⟨.this, ⟨3⟩, some ⟨4⟩⟩) ∧
    classInMethod.resolveImplicit classTypes ⟨5⟩ .super = .ok (some ⟨.super, ⟨3⟩, some ⟨0⟩⟩) ∧
    classInMethod.resolveImplicit classTypes ⟨5⟩ .arguments =
      .ok (some ⟨.arguments, ⟨1⟩, some ⟨1⟩⟩) := by
  have hbuilt : classInMethod.Built := ⟨⟨0⟩, _, rfl⟩
  have hsize : 5 < classInMethod.scopes.size := by decide +kernel
  obtain ⟨⟨owner, scope, howner, hscope, hthis, hreceiver⟩,
      ⟨function?, global?, hfunction, hglobal, harguments⟩, _⟩ :=
    hbuilt.resolveImplicit_agrees_thisType hsize classTypes
  have hfield : classInMethod.nearest (fun scope => !scope.kind.isTransparent) ⟨5⟩ =
      .ok (some ⟨3⟩) := by decide +kernel
  have hmethod : classInMethod.nearest (fun scope => scope.kind = .function false) ⟨5⟩ =
      .ok (some ⟨1⟩) := by decide +kernel
  obtain rfl := Option.some.inj (Except.ok.inj (hfield.symm.trans howner))
  obtain rfl := Except.ok.inj (hmethod.symm.trans hfunction)
  have hkind : scope.kind = .field true := by
    have hkinds : Scope.kind <$> classInMethod.scope ⟨3⟩ = .ok (.field true) := by decide +kernel
    rw [hscope] at hkinds
    exact Except.ok.inj hkinds
  have hextern : (·.bind (·.externType?)) <$> classInMethod.ownVariable? Forest.global .arguments =
      .ok (some ⟨1⟩) := by decide +kernel
  have htype : classInMethod.thisType classTypes ⟨5⟩ = .ok (some ⟨4⟩) := by decide +kernel
  have hsuper : classInMethod.implicitType classTypes ⟨5⟩ .super = .ok (some ⟨0⟩) := by
    decide +kernel
  rw [if_neg (by simp [hkind])] at hreceiver
  rw [hglobal] at hextern
  have hdeclared : global?.bind (·.externType?) = some ⟨1⟩ := Except.ok.inj hextern
  refine ⟨hbuilt, hsize, hthis, ?_, ?_, ?_⟩
  · rw [hreceiver.1, htype]
    rfl
  · rw [hreceiver.2, hsuper]
    rfl
  · rw [harguments, Option.map_some, hdeclared]

end Forest
end FlowTyping
