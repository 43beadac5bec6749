import FlowTyping.Proofs.Forest.Change

/-!
# What declarations change

A declaration that goes through enters its name in its scope and takes it out of the names that are
reserved there. Nothing else touches either of them. So the names that are declared in a scope, and
those that are reserved in it, are told by the declarations since any earlier time.
-/
namespace FlowTyping.Forest
open Attempt

/-- Since an earlier forest some names were declared in a scope, and no others. -/
def DeclaredSince (later forest : Forest) (id : ScopeId) (names : List Name) : Prop :=
  ∀ scope, forest.scopes[id.raw]? = some scope →
    ∃ now, later.scopes[id.raw]? = some now ∧ ∀ name,
      (name ∈ now.index ↔ name ∈ scope.index ∨ name ∈ names) ∧
      (name ∈ now.reserved ↔ name ∈ scope.reserved ∧ name ∉ names)

/-- The names that an edit declares in a scope: one, if it is a declaration there and goes through. -/
def declares (forest : Forest) (id : ScopeId) (edit : Edit) : List Name :=
  match edit, ((perform edit).run.run forest).1 with
  | .declare target ref _, .ok (.declared _) | .tryDeclare target ref _, .ok (.declared _) =>
    if target = id then [(forest.names.name ref).1] else []
  | _, _ => []

def declaresInTurn (id : ScopeId) : Forest → List Edit → List Name
  | _, [] => []
  | forest, edit :: edits =>
    forest.declares id edit ++
      match (perform edit).run.run forest with
      | (.ok _, later) => later.declaresInTurn id edits
      | (.error _, _) => []

theorem declaresInTurn_singleton (forest : Forest) (id : ScopeId) (edit : Edit) :
    forest.declaresInTurn id [edit] = forest.declares id edit := by
  rw [declaresInTurn]
  cases (perform edit).run.run forest with
  | mk outcome later => cases outcome <;> exact List.append_nil _

variable {forest later : Forest} {id : ScopeId} {name : Name} {names : List Name}

theorem mem_declares {edit : Edit} (hname : name ∈ forest.declares id edit) :
    ∃ ref details, (edit = .declare id ref details ∨ edit = .tryDeclare id ref details) ∧
      name = (forest.names.name ref).1 := by
  unfold declares at hname
  split at hname
  next target ref details _ _ =>
    obtain ⟨rfl, rfl⟩ : target = id ∧ name = _ := by simpa using hname
    exact ⟨ref, details, .inl rfl, rfl⟩
  next target ref details _ _ =>
    obtain ⟨rfl, rfl⟩ : target = id ∧ name = _ := by simpa using hname
    exact ⟨ref, details, .inr rfl, rfl⟩
  next => cases hname

theorem DeclaredSince.of_scopes (hscopes : later.scopes[id.raw]? = forest.scopes[id.raw]?) :
    later.DeclaredSince forest id [] :=
  fun scope hscope => ⟨scope, hscopes.trans hscope, by simp⟩

theorem DeclaredSince.refl (forest : Forest) (id : ScopeId) : forest.DeclaredSince forest id [] :=
  .of_scopes rfl

theorem DeclaredSince.trans {last : Forest} {more : List Name}
    (hlater : later.DeclaredSince forest id names) (hlast : last.DeclaredSince later id more) :
    last.DeclaredSince forest id (names ++ more) := by
  intro scope hscope
  obtain ⟨now, hnow, hnames⟩ := hlater scope hscope
  obtain ⟨then', hthen, hmore⟩ := hlast now hnow
  refine ⟨then', hthen, fun name => ?_⟩
  rw [(hmore name).1, (hmore name).2, (hnames name).1, (hnames name).2, List.mem_append]
  tauto

theorem push_declaredSince (forest : Forest) (added : Scope) (id : ScopeId) :
    (forest.push added).2.DeclaredSince forest id [] :=
  fun scope hscope => ⟨scope, scopes_push_of_some hscope, by simp⟩

/-- A declaration is on the account of its own scope only. -/
theorem enter_declaredSince {target : ScopeId} {within : Scope}
    (hdeclares : forest.Declarable target within name) (details : Variable.Details)
    (id : ScopeId) :
    (forest.enter target name details within.declared.size).2.DeclaredSince forest id
      (if target = id then [name] else []) := by
  have henter := scopes_enter hdeclares.inside name details within.declared.size id.raw
  split
  next hid =>
    subst hid
    rw [if_pos rfl] at henter
    intro scope hscope
    obtain rfl := hdeclares.eq hscope
    refine ⟨_, henter, fun other => ?_⟩
    simp only [Std.ExtTreeMap.mem_insert, Std.ExtTreeSet.mem_erase, Std.LawfulEqOrd.compare_eq_iff_eq,
      ne_eq, List.mem_singleton]
    tauto
  next hid =>
    rw [if_neg fun hraw => hid (Handle.ext hraw)] at henter
    exact .of_scopes henter

theorem adding_declaredSince (parent : ScopeId) (root : NodeId) (kind : Scope.Kind)
    (reserved : List Name) (module : Option ModuleId) (table : NameTable) (id : ScopeId) :
    ((adding parent root kind reserved module).run.run
      { forest with names := table }).2.DeclaredSince forest id [] := by
  rcases run_adding { forest with names := table } parent root kind reserved module with
    ⟨around, _, hrun⟩ | ⟨_, fault, hrun⟩
  · rw [hrun]
    exact push_declaredSince _ _ id
  · rw [hrun]
    exact .of_scopes rfl

theorem declares_eq_nil {edit : Edit}
    (hnot : ∀ var, ((perform edit).run.run forest).1 ≠ .ok (.declared var)) (id : ScopeId) :
    forest.declares id edit = [] := by
  unfold declares
  split
  next hanswer => exact absurd hanswer (hnot _)
  next hanswer => exact absurd hanswer (hnot _)
  next => rfl

theorem ne_empty_of_mem_declares (hsized : forest.Sized) {edit : Edit}
    (hname : name ∈ forest.declares id edit) : name ≠ .empty := by
  obtain ⟨ref, details, hedit, rfl⟩ := mem_declares hname
  rcases run_declaration hsized hedit with ⟨within, hdeclares, _⟩ | ⟨_, outcome, hrun, hnot⟩
  · exact hdeclares.named
  · rw [declares_eq_nil (by rwa [hrun]) id] at hname
    cases hname

theorem declaration_declaredSince (hsized : forest.Sized) {edit : Edit} {target : ScopeId}
    {ref : NameRef} {details : Variable.Details}
    (hedit : edit = .declare target ref details ∨ edit = .tryDeclare target ref details)
    (id : ScopeId) :
    ((perform edit).run.run forest).2.DeclaredSince forest id (forest.declares id edit) := by
  rcases run_declaration hsized hedit with ⟨within, hdeclares, hrun⟩ | ⟨_, outcome, hrun, hnot⟩
  · have hnames : forest.declares id edit =
        if target = id then [(forest.names.name ref).1] else [] := by
      rcases hedit with rfl | rfl <;> simp only [declares, hrun]
    rw [hrun, hnames]
    exact enter_declaredSince hdeclares details id
  · rw [declares_eq_nil (by rwa [hrun]) id, hrun]
    exact .of_scopes rfl

/-- What an edit declares in a scope is all that changes in the account of the scope. -/
theorem perform_declaredSince (hsized : forest.Sized) (edit : Edit) (id : ScopeId) :
    ((perform edit).run.run forest).2.DeclaredSince forest id (forest.declares id edit) := by
  cases edit with
  | intern ref => exact .of_scopes rfl
  | addBottom root =>
    rw [perform, run_map_snd, run_addingBottom]
    split
    next => exact push_declaredSince forest _ id
    next => exact .refl forest id
  | addScope parent root kind reserved module =>
    rw [run_addScope, run_map_snd]
    exact adding_declaredSince parent root kind _ module _ id
  | declare target ref details => exact declaration_declaredSince hsized (.inl rfl) id
  | tryDeclare target ref details => exact declaration_declaredSince hsized (.inr rfl) id
  | setRootType target type =>
    rw [perform, run_bind_snd fun _ => keeps_pure _, run_editScope]
    show DeclaredSince _ forest id []
    intro scope hscope
    simp only [Array.getElem?_modify, hscope]
    split <;> simp
  | setType var type =>
    rw [perform, run_bind_snd fun _ _ => run_map_snd _ _ _, run_editVar]
    exact .of_scopes rfl

/-- A relation that declares nothing may be followed any number of times. -/
theorem DeclaredSince.of_steps
    (hsteps : Relation.ReflTransGen (fun forest later => later.DeclaredSince forest id [])
      forest later) : later.DeclaredSince forest id [] := by
  induction hsteps with
  | refl => exact .refl forest id
  | tail _ hstep ih => exact ih.trans hstep

theorem nest_declaredSince (forest : Forest) (parent : ScopeId) (root : NodeId) (kind : Scope.Kind)
    (count : Nat) (id : ScopeId) :
    ((nest parent root kind count).run.run forest).2.DeclaredSince forest id [] :=
  .of_steps <| goesBy_foldlM (fun parent i forest => .single <|
    adding_declaredSince parent (root.after i) kind [] none forest.names id) _ _ forest

def numberedEdits (scope : ScopeId) (stem : String) (details : Variable.Details)
    (indices : List Nat) : List Edit :=
  indices.map fun i => .declare scope (.spelled (stem ++ toString i)) details

theorem declareNumbered_declaredSince (hsized : forest.Sized) (scope : ScopeId) (stem : String)
    (count : Nat) (details : Variable.Details) (id : ScopeId) :
    ((declareNumbered scope stem count details).run.run forest).2.DeclaredSince forest id
      (forest.declaresInTurn id (numberedEdits scope stem details (List.range count))) := by
  unfold declareNumbered
  generalize (none : Option VarId) = last
  -- By induction on the numbers that are left: a declaration that fails is the last one tried.
  induction List.range count generalizing forest last with
  | nil => exact .refl forest id
  | cons i indices ih =>
    have hedit := perform_declaredSince hsized
      (.declare scope (.spelled (stem ++ toString i)) details) id
    have hlater := (changes_of_sized hsized
      (perform_goesBy (.declare scope (.spelled (stem ++ toString i)) details) forest)).2
    rw [List.foldlM_cons, numberedEdits, List.map_cons, declaresInTurn]
    rw [perform, run_map] at hedit hlater ⊢
    cases hrun : (declaring scope (.spelled (stem ++ toString i)) details).run.run forest with
    | mk outcome between =>
      rw [hrun] at hedit hlater
      cases outcome with
      | error fault =>
        rw [run_bind_of_error (by rw [run_map, hrun]; rfl)]
        simpa [Except.map] using hedit
      | ok var =>
        rw [run_bind_of_ok (by rw [run_map, hrun]; rfl)]
        exact hedit.trans (ih hlater (some var))

end FlowTyping.Forest
