import FlowTyping.Proofs.Forest.Reserved

/-!
# Completing a scope

A scope is complete when no names are reserved in it any more. A reserved name is simple and not
declared yet, so as long as there are numbers for variables nothing stands in the way of its
declaration, unless it is the empty name. That may be reserved, but never declared.
-/
namespace FlowTyping.Forest

inductive DeclaresAll (id : ScopeId) : Forest → List (Name × Variable.Details) → Forest → Prop where
  | nil (forest : Forest) : DeclaresAll id forest [] forest
  | cons {forest between later : Forest} {name : Name} {details : Variable.Details}
    {rows : List (Name × Variable.Details)} {var : VarId}
    (htry : forest.tryDeclare id name details = .ok (.ok (var, between)))
    (hrows : DeclaresAll id between rows later) :
    DeclaresAll id forest ((name, details) :: rows) later

variable {forest later : Forest} {id : ScopeId} {scope : Scope} {name : Name}

/-- Nothing is reserved in a scope of unreachable code. -/
theorem Regular.live_of_reserved (hregular : forest.Regular id scope)
    (hname : name ∈ scope.reserved) : scope.kind ≠ .bottom := by
  intro hdead
  rw [(hregular.dead hdead).2.2] at hname
  simp at hname

/-- What is reserved in a scope can be declared there, unless it is the empty name. -/
theorem Built.exists_tryDeclare (hbuilt : forest.Built)
    (hscope : forest.scopes[id.raw]? = some scope) (hname : name ∈ scope.reserved)
    (hempty : name ≠ .empty) (hroom : forest.vars.size < Handle.capacity)
    (details : Variable.Details) : ∃ var later,
      forest.tryDeclare id name details = .ok (.ok (var, later)) ∧ later.Built ∧
        later.vars.size = forest.vars.size + 1 ∧ later.DeclaredSince forest id [name] := by
  have hregular := hbuilt.whole.scopes hscope
  have hdeclares : forest.Declarable id scope name :=
    ⟨hscope, hregular.live_of_reserved hname, hempty, (hregular.reserved hname).2, hroom,
      Nat.lt_of_le_of_lt (hbuilt.sized.declared hscope) hroom⟩
  have hsince := enter_declaredSince hdeclares details id
  rw [if_pos rfl] at hsince
  exact ⟨_, _, tryDeclare_eq_ok_iff.mpr ⟨scope, hdeclares, rfl⟩,
    hbuilt.change (.declaration details hdeclares), Array.size_push .., hsince⟩

/-- Different reserved names can be declared in any order. -/
theorem Built.exists_declaresAll (hbuilt : forest.Built)
    (hscope : forest.scopes[id.raw]? = some scope) {rows : List (Name × Variable.Details)}
    (hdistinct : (rows.map Prod.fst).Nodup)
    (hreserved : ∀ name ∈ rows.map Prod.fst, name ∈ scope.reserved ∧ name ≠ .empty)
    (hroom : forest.vars.size + rows.length ≤ Handle.capacity) :
    ∃ later, DeclaresAll id forest rows later ∧
      later.DeclaredSince forest id (rows.map Prod.fst) := by
  induction rows generalizing forest scope with
  | nil => exact ⟨forest, .nil forest, .refl forest id⟩
  | cons row rows ih =>
    obtain ⟨name, details⟩ := row
    rw [List.map_cons] at hdistinct hreserved
    rw [List.length_cons] at hroom
    obtain ⟨hnew, hdistinct⟩ := List.nodup_cons.mp hdistinct
    obtain ⟨⟨hname, hempty⟩, hreserved⟩ := List.forall_mem_cons.mp hreserved
    obtain ⟨var, between, htry, hbetween, hsize, hsince⟩ :=
      hbuilt.exists_tryDeclare hscope hname hempty (by omega) details
    obtain ⟨now, hnow, haccount⟩ := hsince scope hscope
    -- The names of the other rows are still reserved.
    have hothers : ∀ other ∈ rows.map Prod.fst, other ∈ now.reserved ∧ other ≠ .empty := by
      intro other hother
      obtain ⟨hold, hother'⟩ := hreserved other hother
      refine ⟨(haccount other).2.mpr ⟨hold, ?_⟩, hother'⟩
      rw [List.mem_singleton]
      rintro rfl
      exact hnew hother
    obtain ⟨later, hrows, hrest⟩ := ih hbetween hnow hdistinct hothers (by omega)
    exact ⟨later, .cons htry hrows, hsince.trans hrest⟩

/-- Every declaration takes a number, and there are not more numbers than can be taken. -/
theorem DeclaresAll.room {rows : List (Name × Variable.Details)}
    (hrows : DeclaresAll id forest rows later) (hbuilt : forest.Built) :
    forest.vars.size + rows.length ≤ Handle.capacity := by
  induction hrows with
  | nil forest => exact hbuilt.sized.vars
  | @cons forest between later name details rows var htry hrows ih =>
    have hsize : between.vars.size = forest.vars.size + 1 := by
      obtain ⟨within, _, henter⟩ := tryDeclare_eq_ok_iff.mp htry
      cases henter
      exact Array.size_push ..
    have hrest := ih (hbuilt.change (tryDeclare_change htry))
    rw [List.length_cons]
    omega

/-- The empty name stays reserved: no edit declares it. -/
theorem Built.reserves_empty_after (hbuilt : forest.Built) (hreserves : forest.Reserves id .empty)
    (edits : List Edit) : (forest.after edits).Reserves id .empty := by
  induction edits generalizing forest with
  | nil => exact hreserves
  | cons edit edits ih =>
    obtain ⟨scope, hscope, hempty⟩ := hreserves
    obtain ⟨now, hnow, haccount⟩ := perform_declaredSince hbuilt.sized edit id scope hscope
    have hnot : .empty ∉ forest.declares id edit :=
      fun hname => ne_empty_of_mem_declares hbuilt.sized hname rfl
    exact ih (hbuilt.after [edit]) ⟨now, hnow, (haccount .empty).2.mpr ⟨hempty, hnot⟩⟩

theorem tryDeclare_empty (hscope : forest.scopes[id.raw]? = some scope)
    (hlive : scope.kind ≠ .bottom) (details : Variable.Details) :
    forest.tryDeclare id .empty details = .ok (.error (.emptyName id)) := by
  have hrun : (tryBinding id .empty details).run.run forest =
      (.ok (.error (.emptyName id)), forest) := by
    simp only [tryBinding, Attempt.run_reading_bind, isBottom, scope_eq_ok_iff.mpr hscope,
      Except.ok_bind, Except.pure_eq_ok, decide_eq_true_eq, if_neg hlive, if_true]
    rfl
  rw [tryDeclare, hrun]

/-- A scope in which the empty name is not reserved is completed by declaring the reserved names, in
any order, if there are numbers for that many variables. In a scope that reserves the empty name no
declaration of it goes through, and whatever is built, the scope is never complete. -/
theorem Built.completes (hbuilt : forest.Built) (hscope : forest.scopes[id.raw]? = some scope) :
    (.empty ∉ scope.reserved →
      ∀ rows : List (Name × Variable.Details), (rows.map Prod.fst).Perm scope.reserved.toList →
        ((∃ later, DeclaresAll id forest rows later ∧ later.tryValidate id = .ok (.ok ())) ↔
          forest.vars.size + rows.length ≤ Handle.capacity)) ∧
    (.empty ∈ scope.reserved →
      (∀ details, forest.tryDeclare id .empty details = .ok (.error (.emptyName id))) ∧
      ∀ edits, (forest.after edits).tryValidate id ≠ .ok (.ok ())) := by
  constructor
  · intro hempty rows hperm
    have hmem : ∀ name, name ∈ rows.map Prod.fst ↔ name ∈ scope.reserved :=
      fun name => hperm.mem_iff.trans Std.ExtTreeSet.mem_toList
    have hdistinct := hperm.nodup_iff.mpr (nodup_reserved scope)
    refine ⟨fun ⟨later, hrows, _⟩ => hrows.room hbuilt, fun hroom => ?_⟩
    obtain ⟨later, hrows, hsince⟩ := hbuilt.exists_declaresAll hscope hdistinct
      (fun name hname => ⟨(hmem name).mp hname, by
        rintro rfl
        exact hempty ((hmem _).mp hname)⟩) hroom
    obtain ⟨now, hnow, haccount⟩ := hsince scope hscope
    refine ⟨later, hrows, ?_⟩
    rw [tryValidate_eq_ok_iff]
    refine ⟨(Array.getElem?_eq_some_iff.mp hnow).1, ?_⟩
    rintro name ⟨found, hfound, hname⟩
    obtain rfl := Option.some.inj (hnow.symm.trans hfound)
    obtain ⟨hreserved, hnot⟩ := (haccount name).2.mp hname
    exact hnot ((hmem name).mpr hreserved)
  · intro hempty
    have hlive := (hbuilt.whole.scopes hscope).live_of_reserved hempty
    refine ⟨tryDeclare_empty hscope hlive, fun edits hvalid => ?_⟩
    have hreserves := hbuilt.reserves_empty_after ⟨scope, hscope, hempty⟩ edits
    exact (tryValidate_eq_ok_iff.mp hvalid).2 .empty hreserves

/-- A block with two reserved names, and a block that reserves the empty name. -/
def reserving : Forest :=
  (ofRoot .initial ⟨0⟩).after
    [.addScope ⟨0⟩ ⟨1⟩ .block [.spelled "x", .spelled "y"] none,
      .addScope ⟨0⟩ ⟨2⟩ .block [.spelled ""] none]

theorem reserving_built : reserving.Built := ⟨⟨0⟩, _, rfl⟩

theorem completes_of_reserving :
    let plain : Variable.Details := ⟨none, none, none, false⟩
    (∃ later, DeclaresAll ⟨1⟩ reserving [(⟨6⟩, plain), (⟨5⟩, plain)] later ∧
      later.tryValidate ⟨1⟩ = .ok (.ok ())) ∧
    (∀ details, reserving.tryDeclare ⟨2⟩ .empty details = .ok (.error (.emptyName ⟨2⟩))) ∧
    ∀ edits, (reserving.after edits).tryValidate ⟨2⟩ ≠ .ok (.ok ()) := by
  intro plain
  have hfirst : ((reserving.scopes[(⟨1⟩ : ScopeId).raw]?).any fun scope =>
      .empty ∉ scope.reserved ∧ [⟨6⟩, ⟨5⟩].Perm scope.reserved.toList) = true := by decide +kernel
  have hsecond : ((reserving.scopes[(⟨2⟩ : ScopeId).raw]?).any fun scope =>
      .empty ∈ scope.reserved) = true := by decide +kernel
  obtain ⟨scope, hscope, hreserved⟩ := (Option.any_eq_true _ _).mp hfirst
  obtain ⟨hempty, hperm⟩ := of_decide_eq_true hreserved
  obtain ⟨scope', hscope', hempty'⟩ := (Option.any_eq_true _ _).mp hsecond
  have hcompletes := (reserving_built.completes hscope).1 hempty [(⟨6⟩, plain), (⟨5⟩, plain)] hperm
  exact ⟨hcompletes.mpr (by decide +kernel),
    (reserving_built.completes hscope').2 (of_decide_eq_true hempty')⟩

/-- All that is left to declare in the second block is the empty name, and it cannot be declared. -/
theorem reserving_never_completes : ∃ scope, reserving.Built ∧
    reserving.scopes[2]? = some scope ∧ scope.reserved.toList = [.empty] ∧
    (∀ details, reserving.tryDeclare ⟨2⟩ .empty details = .ok (.error (.emptyName ⟨2⟩))) ∧
    reserving.tryValidate ⟨2⟩ = .ok (.error (.reservedNamesRemain ⟨2⟩ [""])) := by
  have hblock : ((reserving.scopes[(⟨2⟩ : ScopeId).raw]?).any fun scope =>
      scope.kind ≠ .bottom ∧ scope.reserved.toList = [.empty]) = true := by decide +kernel
  obtain ⟨scope, hscope, hfacts⟩ := (Option.any_eq_true _ _).mp hblock
  obtain ⟨hlive, hreserved⟩ := of_decide_eq_true hfacts
  exact ⟨scope, reserving_built, hscope, hreserved, tryDeclare_empty hscope hlive,
    by decide +kernel⟩

end FlowTyping.Forest
