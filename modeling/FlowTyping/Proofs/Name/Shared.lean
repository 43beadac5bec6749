import FlowTyping.Name.Shared
import FlowTyping.Proofs.Name.Table
import Mathlib.Logic.Function.Basic

/-!
# Histories of shared name tables

Beside the tables stands a ledger. It knows of every holder the holder that its table was made for,
and of every table the spellings that were entered in it, in order. What a holder sees is the preset
table with those spellings interned in turn, so a call is seen by those who share the table and by
no others, and what was seen once is seen for ever.
-/
namespace FlowTyping.SharedTables

/-- What holders do with their tables, and how new holders come about. -/
inductive Call where
  | intern (holder : Nat) (spelling : String)
  | tryIntern (holder : Nat) (spelling : String)
  | internNumbered (holder : Nat) (stem : String) (count : Nat)
  | find (holder : Nat) (spelling : String)
  | spelling (holder : Nat) (name : Name)
  | share (holder : Nat)
  | fresh

/-- The tables after a call. A call that is refused, or made by nobody, changes nothing. -/
def perform (shared : SharedTables) : Call → SharedTables
  | .intern holder spelling => ((shared.intern? holder spelling).map Prod.snd).getD shared
  | .tryIntern holder spelling =>
    match shared.tryIntern? holder spelling with
    | some (.ok (_, later)) => later
    | _ => shared
  | .internNumbered holder stem count =>
    ((shared.internNumbered? holder stem count).map Prod.snd).getD shared
  | .find _ _ | .spelling _ _ => shared
  | .share holder => ((shared.share? holder).map Prod.snd).getD shared
  | .fresh => shared.fresh.2

def after (shared : SharedTables) (calls : List Call) : SharedTables :=
  calls.foldl perform shared

/-- For each holder the one that its table was made for, and the spellings that were entered in the
table that was made for a holder. -/
structure Ledger where
  origins : Array Nat
  entered : Nat → List String

namespace Ledger

def initial : Ledger := ⟨#[0], fun _ => []⟩

def table (ledger : Ledger) (origin : Nat) : NameTable :=
  NameTable.initial.entering (ledger.entered origin)

def enter (ledger : Ledger) (holder : Nat) (spellings : List String) : Ledger :=
  match ledger.origins[holder]? with
  | some origin => { ledger with
      entered := Function.update ledger.entered origin (ledger.entered origin ++ spellings) }
  | none => ledger

def admits (ledger : Ledger) (holder : Nat) (spelling : String) : Bool :=
  ledger.origins[holder]?.any fun origin =>
    ((ledger.table origin).find? spelling).isSome || (ledger.table origin).size < Handle.capacity

def perform (ledger : Ledger) : Call → Ledger
  | .intern holder spelling => ledger.enter holder [spelling]
  | .tryIntern holder spelling =>
    if ledger.admits holder spelling then ledger.enter holder [spelling] else ledger
  | .internNumbered holder stem count =>
    ledger.enter holder ((List.range count).map fun i => stem ++ toString i)
  | .find _ _ | .spelling _ _ => ledger
  | .share holder =>
    match ledger.origins[holder]? with
    | some origin => { ledger with origins := ledger.origins.push origin }
    | none => ledger
  | .fresh => { ledger with origins := ledger.origins.push ledger.origins.size }

def after (ledger : Ledger) (calls : List Call) : Ledger :=
  calls.foldl perform ledger

/-- What was entered through a holder and through those who share its table. -/
def enteredBy (ledger : Ledger) (holder : Nat) : List String :=
  ledger.origins[holder]?.elim [] ledger.entered

end Ledger

/-- What the ledger says of the tables. Who is a holder, who shares a table with whom, and what is
in the table. -/
structure Follows (shared : SharedTables) (ledger : Ledger) : Prop where
  table?_eq : ∀ holder, shared.table? holder = ledger.origins[holder]?.map ledger.table
  holders_eq_iff : ∀ holder other, holder < shared.holders.size → other < shared.holders.size →
    (shared.holders[holder]? = shared.holders[other]? ↔
      ledger.origins[holder]? = ledger.origins[other]?)
  size_origins : ledger.origins.size = shared.holders.size
  origin_lt : ∀ origin ∈ ledger.origins, origin < ledger.origins.size
  entered_eq_nil : ∀ origin, ledger.origins.size ≤ origin → ledger.entered origin = []

variable {shared : SharedTables} {ledger : Ledger} {holder : Nat} {table : NameTable}

/-! ## Calls in terms of what a holder sees -/

def grow (shared : SharedTables) (holder : Nat) (spellings : List String) : SharedTables :=
  match shared.table? holder with
  | some table => shared.replace holder (table.entering spellings)
  | none => shared

theorem intern?_eq (htable : shared.table? holder = some table) (spelling : String) :
    shared.intern? holder spelling =
      some ((table.intern spelling).1, shared.grow holder [spelling]) := by
  simp [intern?, grow, htable, NameTable.entering]

theorem tryIntern?_eq (htable : shared.table? holder = some table) (spelling : String) :
    shared.tryIntern? holder spelling =
      if (table.find? spelling).isSome || table.size < Handle.capacity then
        (shared.intern? holder spelling).map .ok
      else some (.error ⟨table.size⟩) := by
  simp only [tryIntern?, intern?, htable, NameTable.tryIntern, Option.bind_eq_bind,
    Option.bind_some]
  by_cases hroom : (table.find? spelling).isSome || table.size < Handle.capacity
  · simp [hroom]
  · simp [hroom]

theorem internNumbered?_eq (htable : shared.table? holder = some table) (stem : String)
    (count : Nat) : (shared.internNumbered? holder stem count).map Prod.snd =
      some (shared.grow holder ((List.range count).map fun i => stem ++ toString i)) := by
  have hfold : ∀ (rounds : List Nat) (last : Option Name) (table : NameTable),
      (rounds.foldl (fun (state : Option Name × NameTable) i =>
        (some (state.2.intern (stem ++ toString i)).1, (state.2.intern (stem ++ toString i)).2))
        (last, table)).2 = table.entering (rounds.map fun i => stem ++ toString i) := by
    intro rounds
    induction rounds with
    | nil => intro _ _; rfl
    | cons i rounds ih => intro _ _; exact ih _ _
  rw [internNumbered?, grow, htable]
  exact congrArg (fun table => some (shared.replace holder table))
    (hfold (List.range count) none table)

theorem exists_place (htable : shared.table? holder = some table) :
    ∃ place, shared.holders[holder]? = some place ∧ shared.tables[place]? = some table := by
  simpa [table?, Option.bind_eq_some_iff] using htable

theorem lt_size_of_table? (htable : shared.table? holder = some table) :
    holder < shared.holders.size := by
  obtain ⟨place, hplace, _⟩ := exists_place htable
  exact (Array.getElem?_eq_some_iff.mp hplace).1

theorem grow_eq {place : Nat} (htable : shared.table? holder = some table)
    (hplace : shared.holders[holder]? = some place) (spellings : List String) :
    shared.grow holder spellings =
      { shared with tables := shared.tables.setIfInBounds place (table.entering spellings) } := by
  simp [grow, htable, replace, hplace]

/-- What is entered through a holder is seen by those who share its table, and by no others. -/
theorem table?_grow (htable : shared.table? holder = some table) (spellings : List String)
    (other : Nat) : (shared.grow holder spellings).table? other =
      if shared.holders[other]? = shared.holders[holder]? then some (table.entering spellings)
      else shared.table? other := by
  obtain ⟨place, hplace, hget⟩ := exists_place htable
  have hlt := (Array.getElem?_eq_some_iff.mp hget).1
  rw [grow_eq htable hplace, hplace]
  cases hother : shared.holders[other]? with
  | none => simp [table?, hother]
  | some place' =>
    by_cases hsame : place' = place
    · simp [table?, hother, hsame, hlt]
    · simp [table?, hother, hsame, Array.getElem?_setIfInBounds_ne (Ne.symm hsame)]

@[simp] theorem holders_grow (shared : SharedTables) (holder : Nat) (spellings : List String) :
    (shared.grow holder spellings).holders = shared.holders := by
  unfold grow replace
  split
  · split <;> rfl
  · rfl

theorem grow_of_known (htable : shared.table? holder = some table) {spellings : List String}
    (hknown : table.entering spellings = table) : shared.grow holder spellings = shared := by
  obtain ⟨place, hplace, hget⟩ := exists_place htable
  obtain ⟨hlt, rfl⟩ := Array.getElem?_eq_some_iff.mp hget
  rw [grow_eq htable hplace, hknown]
  simp [Array.setIfInBounds, hlt]

/-! ## The ledger -/

theorem Ledger.table_enter {origin : Nat} (horigin : ledger.origins[holder]? = some origin)
    (spellings : List String) (other : Nat) : (ledger.enter holder spellings).table other =
      if other = origin then (ledger.table origin).entering spellings else ledger.table other := by
  simp only [enter, horigin, table]
  by_cases hother : other = origin
  · simp [hother, NameTable.entering_append]
  · simp [hother]

@[simp] theorem Ledger.origins_enter (ledger : Ledger) (holder : Nat) (spellings : List String) :
    (ledger.enter holder spellings).origins = ledger.origins := by
  unfold enter
  split <;> rfl

theorem follows_initial : Follows .initial .initial where
  table?_eq holder := by
    cases holder with
    | zero => rfl
    | succ holder => simp [table?, initial, Ledger.initial]
  holders_eq_iff holder other hholder hother := by
    simp [initial] at hholder hother
    simp [hholder, hother]
  size_origins := rfl
  origin_lt := by decide
  entered_eq_nil _ _ := rfl

theorem Follows.exists_origin (hfollows : Follows shared ledger)
    (htable : shared.table? holder = some table) :
    ∃ origin, ledger.origins[holder]? = some origin ∧ ledger.table origin = table := by
  rw [hfollows.table?_eq holder] at htable
  exact Option.map_eq_some_iff.mp htable

theorem Follows.shares_iff (hfollows : Follows shared ledger)
    (htable : shared.table? holder = some table) (other : Nat) :
    shared.holders[other]? = shared.holders[holder]? ↔
      ledger.origins[other]? = ledger.origins[holder]? := by
  have hholder := lt_size_of_table? htable
  by_cases hother : other < shared.holders.size
  · exact hfollows.holders_eq_iff other holder hother hholder
  · have hsize := hfollows.size_origins
    have hnobody : shared.holders[other]? = none := Array.getElem?_eq_none (by omega)
    have hunknown : ledger.origins[other]? = none := Array.getElem?_eq_none (by omega)
    simp [hnobody, hunknown, hholder, hsize]

theorem Follows.grow (hfollows : Follows shared ledger) (holder : Nat) (spellings : List String) :
    Follows (shared.grow holder spellings) (ledger.enter holder spellings) := by
  cases htable : shared.table? holder with
  | none =>
    have horigin := hfollows.table?_eq holder
    rw [htable, eq_comm, Option.map_eq_none_iff] at horigin
    simpa [SharedTables.grow, htable, Ledger.enter, horigin] using hfollows
  | some table =>
    obtain ⟨origin, horigin, hmade⟩ := hfollows.exists_origin htable
    refine ⟨fun other => ?_, by simpa using hfollows.holders_eq_iff,
      by simpa using hfollows.size_origins, by simpa using hfollows.origin_lt,
      fun free hfree => ?_⟩
    · rw [table?_grow htable, Ledger.origins_enter]
      simp only [hfollows.shares_iff htable other, horigin, hfollows.table?_eq other]
      cases hother : ledger.origins[other]? with
      | none => simp
      | some origin' => by_cases hsame : origin' = origin <;>
          simp [Ledger.table_enter horigin, hsame, hmade]
    · have hlt := hfollows.origin_lt origin (Array.mem_of_getElem? horigin)
      rw [Ledger.origins_enter] at hfree
      have hne : free ≠ origin := by omega
      simp [Ledger.enter, horigin, hne, hfollows.entered_eq_nil free hfree]

theorem Follows.share (hfollows : Follows shared ledger) (holder : Nat) :
    Follows (shared.perform (.share holder)) (ledger.perform (.share holder)) := by
  have hsize := hfollows.size_origins
  have horigin := hfollows.table?_eq holder
  cases hplace : shared.holders[holder]? with
  | none =>
    have hunknown : ledger.origins[holder]? = none := by
      rw [Array.getElem?_eq_none_iff] at hplace ⊢
      omega
    simpa [perform, share?, hplace, Ledger.perform, hunknown] using hfollows
  | some place =>
    obtain ⟨origin, hmade⟩ : ∃ origin, ledger.origins[holder]? = some origin := by
      have hlt := (Array.getElem?_eq_some_iff.mp hplace).1
      exact ⟨_, Array.getElem?_eq_getElem (by omega)⟩
    simp only [perform, share?, hplace, Ledger.perform, hmade, Option.bind_eq_bind,
      Option.bind_some, Option.pure_def, Option.map_some, Option.getD_some]
    -- The new holder stands for the one that it was made from.
    have hholders : ∀ other, (shared.holders.push place)[other]? =
        shared.holders[if other = shared.holders.size then holder else other]? := by
      intro other
      rw [Array.getElem?_push]
      split <;> simp [hplace]
    have horigins : ∀ other, (ledger.origins.push origin)[other]? =
        ledger.origins[if other = shared.holders.size then holder else other]? := by
      intro other
      rw [Array.getElem?_push, hsize]
      split <;> simp [hmade]
    have hknown := (Array.getElem?_eq_some_iff.mp hplace).1
    constructor
    · intro other
      show _ = ((ledger.origins.push origin)[other]?).map ledger.table
      rw [horigins, ← hfollows.table?_eq]
      simp [table?, hholders]
    · intro first second hfirst hsecond
      simp only [Array.size_push] at hfirst hsecond
      rw [hholders, hholders, horigins, horigins]
      apply hfollows.holders_eq_iff <;> split <;> omega
    · simp [hsize]
    · intro origin' horigin'
      have hlt := hfollows.origin_lt
      rcases Array.mem_push.mp horigin' with hold | rfl
      · simpa using Nat.lt_succ_of_lt (hlt origin' hold)
      · simpa using Nat.lt_succ_of_lt (hlt origin' (Array.mem_of_getElem? hmade))
    · intro free hfree
      simp only [Array.size_push] at hfree
      exact hfollows.entered_eq_nil free (by omega)

theorem Follows.fresh (hfollows : Follows shared ledger) :
    Follows (shared.perform .fresh) (ledger.perform .fresh) := by
  have hsize := hfollows.size_origins
  -- No older holder has the new place, and no older origin is the new holder.
  have hplaces : ∀ other : Nat, shared.holders[other]? ≠ some shared.tables.size := by
    intro other hplace
    have hlt := (Array.getElem?_eq_some_iff.mp hplace).1
    have htable := hfollows.table?_eq other
    rw [Array.getElem?_eq_getElem (by omega : other < ledger.origins.size), table?] at htable
    simp [hplace] at htable
  have horigins : ∀ other : Nat, ledger.origins[other]? ≠ some shared.holders.size := by
    intro other horigin
    have hlt := hfollows.origin_lt _ (Array.mem_of_getElem? horigin)
    omega
  simp only [perform, SharedTables.fresh, Ledger.perform]
  constructor
  · intro other
    show _ = ((ledger.origins.push ledger.origins.size)[other]?).map ledger.table
    have hempty := hfollows.entered_eq_nil _ (Nat.le_refl _)
    by_cases hnew : other = shared.holders.size
    · have htable : ledger.table ledger.origins.size = .initial := by
        rw [Ledger.table, hempty]
        rfl
      rw [hnew, ← hsize, Array.getElem?_push_size, Option.map_some, htable, hsize]
      simp [table?]
    · have htable := hfollows.table?_eq other
      rw [Array.getElem?_push, hsize, if_neg hnew, ← htable]
      cases hplace : shared.holders[other]? with
      | none => simp [table?, Array.getElem?_push, hnew, hplace]
      | some place =>
        have hold : place ≠ shared.tables.size := fun heq => hplaces other (heq ▸ hplace)
        simp [table?, Array.getElem?_push, hnew, hplace, hold]
  · intro first second hfirst hsecond
    simp only [Array.size_push] at hfirst hsecond
    simp only [Array.getElem?_push, hsize]
    by_cases hfirst' : first = shared.holders.size
    · by_cases hsecond' : second = shared.holders.size
      · simp [hfirst', hsecond']
      · simp [hfirst', hsecond', (hplaces second).symm, (horigins second).symm]
    · by_cases hsecond' : second = shared.holders.size
      · simp [hfirst', hsecond', hplaces first, horigins first]
      · simpa only [hfirst', hsecond', if_false] using
          hfollows.holders_eq_iff first second (by omega) (by omega)
  · simp [hsize]
  · intro origin horigin
    rcases Array.mem_push.mp horigin with hold | rfl
    · simpa using Nat.lt_succ_of_lt (hfollows.origin_lt origin hold)
    · simp
  · intro free hfree
    simp only [Array.size_push] at hfree
    exact hfollows.entered_eq_nil free (by omega)

/-- A call does to the tables what it does to the ledger. -/
theorem Follows.perform (hfollows : Follows shared ledger) (call : Call) :
    Follows (shared.perform call) (ledger.perform call) := by
  cases call with
  | intern holder spelling =>
    have hgrow := hfollows.grow holder [spelling]
    cases htable : shared.table? holder with
    | none =>
      simpa [SharedTables.perform, intern?, htable, SharedTables.grow, Ledger.perform] using hgrow
    | some table => simpa [SharedTables.perform, intern?_eq htable, Ledger.perform] using hgrow
  | tryIntern holder spelling =>
    have hgrow := hfollows.grow holder [spelling]
    cases htable : shared.table? holder with
    | none =>
      have horigin := hfollows.table?_eq holder
      rw [htable, eq_comm, Option.map_eq_none_iff] at horigin
      simpa [SharedTables.perform, tryIntern?, htable, Ledger.perform, Ledger.admits, horigin]
        using hfollows
    | some table =>
      obtain ⟨origin, horigin, hmade⟩ := hfollows.exists_origin htable
      simp only [SharedTables.perform, tryIntern?_eq htable, intern?_eq htable, Ledger.perform,
        Ledger.admits, horigin, hmade, Option.any_some]
      by_cases hroom : (table.find? spelling).isSome || table.size < Handle.capacity
      · simpa [hroom] using hgrow
      · simpa [hroom] using hfollows
  | internNumbered holder stem count =>
    have hgrow := hfollows.grow holder ((List.range count).map fun i => stem ++ toString i)
    cases htable : shared.table? holder with
    | none =>
      simpa [SharedTables.perform, internNumbered?, htable, SharedTables.grow, Ledger.perform]
        using hgrow
    | some table =>
      simpa [SharedTables.perform, internNumbered?_eq htable, Ledger.perform] using hgrow
  | find holder spelling => exact hfollows
  | spelling holder name => exact hfollows
  | share holder => exact hfollows.share holder
  | fresh => exact hfollows.fresh

theorem Follows.after (hfollows : Follows shared ledger) (calls : List Call) :
    Follows (shared.after calls) (ledger.after calls) := by
  induction calls generalizing shared ledger with
  | nil => exact hfollows
  | cons call calls ih => exact ih (hfollows.perform call)

/-! ## What holders can rely on -/

/-- The table that a holder sees, and what interning through the holder does. -/
structure Lawful (shared : SharedTables) (ledger : Ledger) (holder : Nat) (table : NameTable) :
    Prop where
  inverse : ∀ spelling name,
    table.find? spelling = some name ↔ table.spelling? name = some spelling
  nodup : table.spellings.toList.Nodup
  preset : ∀ i, i < 5 → table.spelling? ⟨i⟩ = NameTable.preset[i]?
  /-- A known spelling has its name already, and a new one comes last. Those who share the table see
  it, and nobody else. -/
  interns : ∀ spelling, ∃ name later grown,
    shared.intern? holder spelling = some (name, later) ∧
    (table.find? spelling = some name ∧ later = shared ∧ grown = table ∨
      table.find? spelling = none ∧ name = ⟨table.size⟩ ∧
        grown.spellings = table.spellings.push spelling) ∧
    ∀ other, later.table? other =
      if ledger.origins[other]? = ledger.origins[holder]? then some grown
      else shared.table? other
  tries : ∀ spelling, shared.tryIntern? holder spelling =
    if (table.find? spelling).isSome || table.size < Handle.capacity then
      (shared.intern? holder spelling).map .ok
    else some (.error ⟨table.size⟩)
  /-- Names keep their spellings whatever is called later. -/
  keeps : ∀ more, ∃ later, (shared.after more).table? holder = some later ∧
    ∀ name spelling, table.spelling? name = some spelling → later.spelling? name = some spelling
  isPreset_iff : table.isPreset = true ↔
    ∀ spelling ∈ ledger.enteredBy holder, spelling ∈ NameTable.preset

/-- A later ledger. Holders keep their tables, and spellings are added at the end. -/
structure Ledger.Extends (later ledger : Ledger) : Prop where
  origins : ∀ {holder origin : Nat}, ledger.origins[holder]? = some origin →
    later.origins[holder]? = some origin
  entered : ∀ origin, ledger.entered origin <+: later.entered origin

theorem Ledger.Extends.refl (ledger : Ledger) : ledger.Extends ledger :=
  ⟨id, fun _ => List.prefix_refl _⟩

theorem Ledger.extends_enter (ledger : Ledger) (holder : Nat) (spellings : List String) :
    (ledger.enter holder spellings).Extends ledger := by
  constructor
  · simp
  · intro origin
    unfold enter
    split
    next made _ => by_cases hsame : origin = made <;> simp [hsame]
    next => exact List.prefix_refl _

theorem Ledger.extends_push (ledger : Ledger) (origin : Nat) :
    ({ ledger with origins := ledger.origins.push origin } : Ledger).Extends ledger := by
  constructor
  · intro holder made hmade
    have hlt := (Array.getElem?_eq_some_iff.mp hmade).1
    rw [Array.getElem?_push, if_neg (Nat.ne_of_lt hlt), hmade]
  · exact fun _ => List.prefix_refl _

theorem Ledger.extends_perform (ledger : Ledger) (call : Call) :
    (ledger.perform call).Extends ledger := by
  cases call with
  | intern holder spelling => exact ledger.extends_enter holder _
  | tryIntern holder spelling =>
    simp only [perform]
    split
    · exact ledger.extends_enter holder _
    · exact .refl ledger
  | internNumbered holder stem count => exact ledger.extends_enter holder _
  | find holder spelling => exact .refl ledger
  | spelling holder name => exact .refl ledger
  | share holder =>
    simp only [perform]
    split
    · exact ledger.extends_push _
    · exact .refl ledger
  | fresh => exact ledger.extends_push _

theorem Ledger.extends_after (ledger : Ledger) (calls : List Call) :
    (ledger.after calls).Extends ledger := by
  induction calls generalizing ledger with
  | nil => exact .refl ledger
  | cons call calls ih =>
    have hfirst := ledger.extends_perform call
    have hrest := ih (ledger.perform call)
    exact ⟨fun horigin => hrest.origins (hfirst.origins horigin),
      fun origin => (hfirst.entered origin).trans (hrest.entered origin)⟩

theorem Ledger.Extends.spelling?_table {later : Ledger} (hextends : later.Extends ledger)
    {origin : Nat} {name : Name} {spelling : String}
    (hspelling : (ledger.table origin).spelling? name = some spelling) :
    (later.table origin).spelling? name = some spelling := by
  obtain ⟨more, hmore⟩ := hextends.entered origin
  have hprefix : (ledger.table origin).spellings.toList <+:
      (later.table origin).spellings.toList := by
    rw [table, table, ← hmore, NameTable.entering_append]
    exact NameTable.prefix_entering _ more
  rw [NameTable.spelling?, ← Array.getElem?_toList] at hspelling ⊢
  obtain ⟨hlt, _⟩ := List.getElem?_eq_some_iff.mp hspelling
  rw [List.prefix_iff_getElem?.mp hprefix _ hlt, ← List.getElem?_eq_getElem hlt, hspelling]

theorem Follows.lawful (hfollows : Follows shared ledger)
    (htable : shared.table? holder = some table) : Lawful shared ledger holder table := by
  obtain ⟨origin, horigin, rfl⟩ := hfollows.exists_origin htable
  have hsound := NameTable.sound_initial.entering (ledger.entered origin)
  constructor
  · exact hsound
  · exact hsound.nodup_spellings
  · intro i hi
    have hpreset : NameTable.initial.spellings.toList = NameTable.preset := by decide +kernel
    have hprefix := NameTable.prefix_entering .initial (ledger.entered origin)
    rw [hpreset] at hprefix
    rw [NameTable.spelling?, ← Array.getElem?_toList]
    exact (List.prefix_iff_getElem?.mp hprefix i hi).trans (List.getElem?_eq_getElem hi).symm
  · intro spelling
    refine ⟨_, _, ((ledger.table origin).intern spelling).2, intern?_eq htable spelling, ?_, ?_⟩
    · cases hknown : (ledger.table origin).find? spelling with
      | some name =>
        have hsame := NameTable.intern_of_known hknown
        rw [hsame]
        exact .inl ⟨rfl, grow_of_known htable (by simp [NameTable.entering, hsame]), rfl⟩
      | none =>
        rw [NameTable.intern_of_new hknown]
        exact .inr ⟨rfl, rfl, rfl⟩
    · intro other
      rw [table?_grow htable]
      simp only [hfollows.shares_iff htable other]
      rfl
  · exact tryIntern?_eq htable
  · intro more
    have hextends := ledger.extends_after more
    refine ⟨(ledger.after more).table origin, ?_, fun _ _ => hextends.spelling?_table⟩
    rw [(hfollows.after more).table?_eq, hextends.origins horigin, Option.map_some]
  · rw [Ledger.enteredBy, horigin]
    exact NameTable.isPreset_entering_iff _

/-- After all calls every holder has a table. It gives each spelling one name and each name one
spelling, and it grows at the end only, by what is entered through those who share it. -/
theorem lawful_after (calls : List Call) {holder : Nat}
    (hholder : holder < (initial.after calls).holders.size) :
    ∃ table, (initial.after calls).table? holder = some table ∧
      Lawful (initial.after calls) (Ledger.initial.after calls) holder table := by
  have hfollows := follows_initial.after calls
  have hsize := hfollows.size_origins
  have htable := hfollows.table?_eq holder
  rw [Array.getElem?_eq_getElem (by omega), Option.map_some] at htable
  exact ⟨_, htable, hfollows.lawful htable⟩

/-- Two holders share a table and enter a spelling twice. A third one has a table of its own. -/
def twoTables : List Call :=
  [.share 0, .intern 1 "a", .fresh, .tryIntern 2 "b", .find 0 "a", .intern 0 "a", .share 2]

theorem lawful_after_twoTables :
    1 < (initial.after twoTables).holders.size ∧
    ∃ table, (initial.after twoTables).table? 1 = some table ∧
      Lawful (initial.after twoTables) (Ledger.initial.after twoTables) 1 table :=
  have hholder : 1 < (initial.after twoTables).holders.size := by decide +kernel
  ⟨hholder, lawful_after twoTables hholder⟩

end FlowTyping.SharedTables
