import FlowTyping.Proofs.Forest.Account
import FlowTyping.Proofs.Forest.Later
import Mathlib.Data.List.Find

/-!
# Where names will be declared

A scope claims the names that it declares and those that are reserved in it. A declaration of a
reserved name only moves the name from the one to the other, so as long as nothing else is declared
all scopes keep their claims. Then it can be told beforehand where a simple name will be declared:
in the nearest scope that claims it. Once no names are reserved any more, it is found there.
-/
namespace FlowTyping

def Scope.claims (scope : Scope) (name : Name) : Bool :=
  scope.index.contains name || scope.reserved.contains name

namespace Forest

/-- A name is reserved in a scope and still to be declared there. -/
def Reserves (forest : Forest) (id : ScopeId) (name : Name) : Prop :=
  ∃ scope, forest.scopes[id.raw]? = some scope ∧ name ∈ scope.reserved

instance (forest : Forest) (id : ScopeId) (name : Name) : Decidable (forest.Reserves id name) :=
  decidable_of_iff ((forest.scopes[id.raw]?).any (·.reserved.contains name) = true) <| by
    simp [Reserves, Option.any_eq_true]

/-- An edit that declares nothing but what is reserved. -/
def Foretells (forest : Forest) : Edit → Prop
  | .declare id ref _ | .tryDeclare id ref _ => forest.Reserves id (forest.names.name ref).1
  | _ => True

def Foretold : Forest → List Edit → Prop
  | _, [] => True
  | forest, edit :: edits => forest.Foretells edit ∧ (forest.after [edit]).Foretold edits

/-- All names that were reserved in a scope and around it are declared. -/
def Complete (forest : Forest) (a : ScopeId) : Prop :=
  ∀ id ∈ forest.path a, ∀ name, ¬forest.Reserves id name

def KeepsClaims (later forest : Forest) : Prop :=
  ∀ (i : Nat) (scope : Scope), forest.scopes[i]? = some scope →
    ∃ now, later.scopes[i]? = some now ∧ ∀ name, now.claims name = scope.claims name

variable {forest later : Forest} {a id : ScopeId} {name : Name}

/-! ## Claims -/

theorem KeepsClaims.refl (forest : Forest) : forest.KeepsClaims forest :=
  fun _ scope hscope => ⟨scope, hscope, fun _ => rfl⟩

theorem KeepsClaims.trans {last : Forest} (hlast : last.KeepsClaims later)
    (hlater : later.KeepsClaims forest) : last.KeepsClaims forest := by
  intro i scope hscope
  obtain ⟨now, hnow, hsame⟩ := hlater i scope hscope
  obtain ⟨then', hthen, hsame'⟩ := hlast i now hnow
  exact ⟨then', hthen, fun name => (hsame' name).trans (hsame name)⟩

theorem Foretells.reserves {edit : Edit} (hforetells : forest.Foretells edit)
    (hname : name ∈ forest.declares id edit) : forest.Reserves id name := by
  obtain ⟨ref, details, hedit, rfl⟩ := mem_declares hname
  rcases hedit with rfl | rfl <;> exact hforetells

/-- An edit that declares nothing but what is reserved leaves all claims as they are: what it
declares was reserved, so it is claimed as before. -/
theorem Foretells.keepsClaims (hsized : forest.Sized) {edit : Edit}
    (hforetells : forest.Foretells edit) : (forest.after [edit]).KeepsClaims forest := by
  intro i scope hscope
  obtain ⟨now, hnow, haccount⟩ := perform_declaredSince hsized edit ⟨i⟩ scope hscope
  refine ⟨now, hnow, fun name => ?_⟩
  have hreserved : name ∈ forest.declares ⟨i⟩ edit → name ∈ scope.reserved := by
    intro hname
    obtain ⟨within, hwithin, hname⟩ := hforetells.reserves hname
    obtain rfl := Option.some.inj (hscope.symm.trans hwithin)
    exact hname
  rw [Bool.eq_iff_iff]
  simp only [Scope.claims, Bool.or_eq_true, Std.ExtTreeMap.contains_iff_mem,
    Std.ExtTreeSet.contains_iff_mem, haccount]
  tauto

theorem Foretold.keepsClaims (hbuilt : forest.Built) {edits : List Edit}
    (hforetold : forest.Foretold edits) : (forest.after edits).KeepsClaims forest := by
  induction edits generalizing forest with
  | nil => exact .refl forest
  | cons edit edits ih =>
    have hfirst := hforetold.1.keepsClaims hbuilt.sized
    exact (ih (hbuilt.after [edit]) hforetold.2).trans hfirst

/-! ## Answers -/

/-- Where all scopes of a path keep their claims, a name is expected where it was. -/
theorem Built.eventualScope_congr (hbuilt : forest.Built) (hbuilt' : later.Built)
    (hlater : later.Extends forest) (hkeeps : later.KeepsClaims forest)
    (ha : a.raw < forest.scopes.size) (name : Name) :
    later.eventualScope a name = forest.eventualScope a name := by
  have hsound := hbuilt.sound
  unfold eventualScope
  rw [hbuilt'.sound.nearest_eq (hlater.lt_size ha), hsound.nearest_eq ha, hlater.path ha]
  refine congrArg Except.ok (List.find?_congr fun id hid => ?_)
  have hscope := Array.getElem?_eq_getElem (hsound.mem_path_facts hid).1
  obtain ⟨now, hnow, hsame⟩ := hkeeps _ _ hscope
  rw [hnow, hscope, Option.any_some, Option.any_some]
  exact hsame name

theorem Sound.isSome_own? (hsound : forest.Sound) (id : ScopeId) (name : Name) :
    (forest.own? id name).isSome = (forest.scopes[id.raw]?).any (·.index.contains name) := by
  unfold own?
  cases hscope : forest.scopes[id.raw]? with
  | none => rfl
  | some scope =>
    rw [Option.any_some, Std.ExtTreeMap.contains_eq_isSome_getElem?]
    cases hvar : scope.index[name]? with
    | none => simp [hvar]
    | some var =>
      obtain ⟨found, hfound, _⟩ := hsound.declared hscope hvar
      simp [hvar, hfound]

/-- A simple name is found in the nearest scope that declares it. -/
theorem Sound.declaringScope_simple (hsound : forest.Sound) (ha : a.raw < forest.scopes.size)
    (hsimple : forest.Simple name) :
    forest.declaringScope a name =
      .ok ((forest.path a).find? fun id => (forest.own? id name).isSome) := by
  rw [declaringScope, hsound.resolve_simple ha hsimple, findSome?_eq_bind_find?]
  cases hfind : (forest.path a).find? fun id => (forest.own? id name).isSome with
  | none => rfl
  | some id =>
    have hown : (forest.own? id name).isSome = true :=
      List.find?_some (p := fun id => (forest.own? id name).isSome) hfind
    obtain ⟨found, hfound⟩ := Option.isSome_iff_exists.mp hown
    change Except.ok ((forest.own? id name).map (·.scope)) = _
    rw [hfound, Option.map_some, (hsound.own?_facts hfound).1]

/-- Where no names are reserved any more, a simple name is found where it is expected. -/
theorem Sound.declaringScope_of_complete (hsound : forest.Sound)
    (ha : a.raw < forest.scopes.size) (hcomplete : forest.Complete a)
    (hsimple : forest.Simple name) :
    forest.declaringScope a name = forest.eventualScope a name := by
  rw [hsound.declaringScope_simple ha hsimple, eventualScope, hsound.nearest_eq ha]
  refine congrArg Except.ok (List.find?_congr fun id hid => ?_)
  rw [hsound.isSome_own?]
  cases hscope : forest.scopes[id.raw]? with
  | none => rfl
  | some scope =>
    have hnone : scope.reserved.contains name = false := by
      rw [Bool.eq_false_iff]
      exact fun hreserved => hcomplete id hid name ⟨scope, hscope, hreserved⟩
    simp [hnone]

theorem tryValidate_eq_ok_iff :
    forest.tryValidate id = .ok (.ok ()) ↔
      id.raw < forest.scopes.size ∧ ∀ name, ¬forest.Reserves id name := by
  rw [tryValidate_eq]
  unfold Forest.scope Reserves
  cases hscope : forest.scopes[id.raw]? with
  | none => simp [Array.getElem?_eq_none_iff.mp hscope]
  | some scope =>
    have hlt := (Array.getElem?_eq_some_iff.mp hscope).1
    simp only [Except.ok_bind, hlt, true_and, Option.some.injEq, exists_eq_left']
    rw [← Std.ExtTreeSet.eq_empty_iff_forall_not_mem, ← Std.ExtTreeSet.isEmpty_iff]
    cases hempty : scope.reserved.isEmpty with
    | true => simp
    | false => cases scope.reserved.toList.mapM forest.spelling <;> simp

/-- Validation of all scopes goes through only if no names are reserved in any of them. -/
theorem not_reserves_of_tryValidateAll (hvalid : forest.tryValidateAll = .ok (.ok ()))
    (id : ScopeId) (name : Name) : ¬forest.Reserves id name := by
  have heach : ∀ indices, forest.tryValidateEach indices = .ok (.ok ()) →
      ∀ i ∈ indices, forest.tryValidate ⟨i⟩ = .ok (.ok ()) := by
    intro indices hindices
    induction indices with
    | nil => simp
    | cons index indices ih =>
      rw [tryValidateEach_cons] at hindices
      obtain ⟨i, hnumber, hindices⟩ := Except.bind_eq_ok_iff.mp hindices
      obtain ⟨_, rfl⟩ := number_eq_ok_iff.mp hnumber
      obtain ⟨verdict, hverdict, hindices⟩ := Except.bind_eq_ok_iff.mp hindices
      cases verdict with
      | error error => cases hindices
      | ok complete => exact List.forall_mem_cons.mpr ⟨hverdict, ih hindices⟩
  rintro ⟨scope, hscope, hreserved⟩
  have hlt := (Array.getElem?_eq_some_iff.mp hscope).1
  have hcomplete := heach _ hvalid id.raw (List.mem_range.mpr hlt)
  exact (tryValidate_eq_ok_iff.mp hcomplete).2 name ⟨scope, hscope, hreserved⟩

/-- As long as nothing is declared but what is reserved, every scope goes on expecting each name in
the same scope. Where nothing is reserved any more, as is so after validation, simple names are
found where they were expected from the start. -/
theorem Built.eventualScope_after (hbuilt : forest.Built) {edits : List Edit}
    (hforetold : forest.Foretold edits) (ha : a.raw < forest.scopes.size) :
    let later := forest.after edits
    (∀ name, ∃ expected, forest.eventualScope a name = .ok expected ∧
      later.eventualScope a name = .ok expected ∧
      (later.Complete a → later.Simple name → later.declaringScope a name = .ok expected)) ∧
    (later.tryValidateAll = .ok (.ok ()) → later.Complete a) := by
  intro later
  have hbuilt' : later.Built := hbuilt.after edits
  have hextends : later.Extends forest := extends_of_changes (after_changes hbuilt.sized edits)
  constructor
  · intro name
    have hexpected := hbuilt.sound.nearest_eq ha
      (fun scope => scope.index.contains name || scope.reserved.contains name)
    have hsame := hbuilt.eventualScope_congr hbuilt' hextends (hforetold.keepsClaims hbuilt) ha name
    refine ⟨_, hexpected, hsame.trans hexpected, fun hcomplete hsimple => ?_⟩
    rw [hbuilt'.sound.declaringScope_of_complete (hextends.lt_size ha) hcomplete hsimple, hsame]
    exact hexpected
  · exact fun hvalid id _ => not_reserves_of_tryValidateAll hvalid id

def reservedName : Forest :=
  (ofRoot .initial ⟨0⟩).after
    [.addScope ⟨0⟩ ⟨1⟩ (.function false) [.spelled "x"] none, .addScope ⟨1⟩ ⟨2⟩ .block [] none]

def declaringReserved : List Edit :=
  [.addBottom ⟨3⟩, .addScope ⟨2⟩ ⟨4⟩ .block [] none,
    .declare ⟨1⟩ (.spelled "x") ⟨none, none, none, false⟩]

/-- The name is expected in the function before it is found there. -/
theorem eventualScope_after_of_reservedName :
    reservedName.eventualScope ⟨2⟩ ⟨5⟩ = .ok (some ⟨1⟩) ∧
      reservedName.declaringScope ⟨2⟩ ⟨5⟩ = .ok none ∧
        (reservedName.after declaringReserved).declaringScope ⟨2⟩ ⟨5⟩ = .ok (some ⟨1⟩) := by
  have hbuilt : reservedName.Built := ⟨⟨0⟩, _, rfl⟩
  have hforetold : reservedName.Foretold declaringReserved :=
    ⟨trivial, trivial, by unfold Foretells; decide +kernel, trivial⟩
  obtain ⟨hnames, hvalid⟩ := hbuilt.eventualScope_after hforetold
    (show (⟨2⟩ : ScopeId).raw < reservedName.scopes.size by decide +kernel)
  obtain ⟨expected, hexpected, _, hfound⟩ := hnames ⟨5⟩
  have hfunction : reservedName.eventualScope ⟨2⟩ ⟨5⟩ = .ok (some ⟨1⟩) := by decide +kernel
  obtain rfl := Except.ok.inj (hexpected.symm.trans hfunction)
  refine ⟨hfunction, by decide +kernel, hfound (hvalid (by decide +kernel)) ?_⟩
  exact ⟨"x", by decide +kernel, by decide +kernel⟩

end Forest
end FlowTyping
