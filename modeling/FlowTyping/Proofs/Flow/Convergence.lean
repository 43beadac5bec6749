import FlowTyping.Proofs.Flow.Regrouping
import Mathlib.Algebra.Order.BigOperators.Group.Finset
import Mathlib.Data.Set.Card

/-!
# Joins one after another

A loop is analysed by joining what comes round into what is known already. The type of a name can
only rise: from none to the empty type, and then by one part or more at a time. So there is a bound
on the number of rounds after which the result disagrees with the one before, and it depends on
nothing but the number of names that are refined and the number of parts of the types involved.
-/
namespace FlowTyping.TypeTable
variable {table later : TypeTable} {a b : Option TypeId}

/-- How far a slot has risen: one more than the number of parts of its type, if it has one. -/
def rank (table : TypeTable) : Option TypeId → ℕ
  | some type => (table.parts type).card + 1
  | none => 0

theorem rank_le_of_value_le_coe {types : Finset TypeId} (hle : table.value a ≤ types) :
    table.rank a ≤ types.card + 1 := by
  cases a with
  | none => exact Nat.zero_le _
  | some type => exact Nat.succ_le_succ (Finset.card_le_card (WithBot.coe_le_coe.mp hle))

theorem rank_mono (hle : table.value a ≤ table.value b) : table.rank a ≤ table.rank b := by
  cases b with
  | none =>
    cases a with
    | none => exact Nat.le_refl _
    | some type => exact absurd (le_bot_iff.mp hle) WithBot.coe_ne_bot
  | some type => exact rank_le_of_value_le_coe hle

theorem rank_strictMono (hlt : table.value a < table.value b) : table.rank a < table.rank b := by
  cases b with
  | none => exact absurd hlt not_lt_bot
  | some typeB =>
    cases a with
    | none => exact Nat.succ_pos _
    | some typeA => exact Nat.succ_lt_succ (Finset.card_lt_card (WithBot.coe_lt_coe.mp hlt))

theorem Grows.rank (hgrows : table.Grows later) (ha : table.Holds a) :
    later.rank a = table.rank a := by
  cases a with
  | none => rfl
  | some type => rw [TypeTable.rank, TypeTable.rank, hgrows.parts (ha type rfl)]

/-- A change to tables that keeps what a table has and the form of its unions. -/
structure Learns (learn : TypeTable → TypeTable) : Prop where
  grows : ∀ table : TypeTable, table.Sound → table.Grows (learn table)
  sound : ∀ table : TypeTable, table.Sound → (learn table).Sound

end FlowTyping.TypeTable

namespace FlowTyping.Flow
open TypeLattice Attempt

/-- What is known after some rounds, in each of which a branch is joined into what was known before.
Between the rounds the lattice may learn new types. -/
def accumulated (forest : Forest) (learn : ℕ → TypeTable → TypeTable) (stamp : ℕ) (start : Flow)
    (branches : ℕ → Flow) : ℕ → Attempt Fault TypeTable Flow
  | 0 => pure start
  | k + 1 => do
    let known ← accumulated forest learn stamp start branches k
    let made ← join (stamp + k) forest [known, branches k]
    .always fun table => (made, learn k table)

structure Brings (flow : Flow) (forest : Forest) (table : TypeTable) (scope : ScopeId)
    (names : Finset Name) (parts : Finset TypeId) : Prop where
  scope_eq : flow.scope = scope
  fits : flow.Fits forest table
  refined : ∀ name ∈ flow.slotNames, name ∈ names
  made : ∀ name, ∀ type ∈ flow.refinement? name, table.parts type ⊆ parts

/-- A flow scope with declared types for all but some names, and for these with types made of given
parts. -/
structure Within (flow : Flow) (forest : Forest) (table : TypeTable) (scope : ScopeId)
    (names : Finset Name) (parts : Finset TypeId) : Prop where
  scope_eq : flow.scope = scope
  fits : flow.Fits forest table
  declared : ∀ name ∉ names, flow.effective? forest name = forest.declared? scope name
  bounded : ∀ name ∈ names, table.value (flow.effective? forest name) ≤ parts

variable {forest : Forest} {table later : TypeTable} {scope : ScopeId} {names : Finset Name}
  {parts : Finset TypeId} {flow known branch made : Flow}

theorem Brings.grow (hbrings : flow.Brings forest table scope names parts)
    (hgrows : table.Grows later) : flow.Brings forest later scope names parts := by
  refine ⟨hbrings.scope_eq, hbrings.fits.grow hgrows, hbrings.refined, fun name type htype => ?_⟩
  rw [hgrows.parts (hbrings.fits.types name type htype)]
  exact hbrings.made name type htype

theorem Brings.within (hbrings : flow.Brings forest table scope names parts)
    (hdeclared : ∀ name ∈ names, table.value (forest.declared? scope name) ≤ parts) :
    flow.Within forest table scope names parts := by
  refine ⟨hbrings.scope_eq, hbrings.fits, fun name hname => ?_, fun name hname => ?_⟩
  · have hnone : flow.refinement? name = none := by
      rw [← Option.not_isSome_iff_eq_none, ← mem_slotNames]
      exact mt (hbrings.refined name) hname
    rw [effective?, hnone, Option.none_or, hbrings.scope_eq]
  · cases hrefined : flow.refinement? name with
    | none =>
      rw [effective?, hrefined, Option.none_or, hbrings.scope_eq]
      exact hdeclared name hname
    | some type =>
      rw [effective?, hrefined, Option.some_or]
      exact WithBot.coe_le_coe.mpr (hbrings.made name type hrefined)

theorem Within.grow (hforest : forest.Sound) (htyped : forest.Typed table)
    (hwithin : flow.Within forest table scope names parts) (hgrows : table.Grows later) :
    flow.Within forest later scope names parts := by
  refine ⟨hwithin.scope_eq, hwithin.fits.grow hgrows, hwithin.declared, fun name hname => ?_⟩
  rw [hgrows.value (hwithin.fits.effective hforest htyped name)]
  exact hwithin.bounded name hname

/-- The join of two flow scopes of one scope has for every name the least type above theirs. -/
theorem Merges.value_le_iff (hforest : forest.Sound)
    (hmerges : made.Merges forest table [known, branch]) (hknown : known.scope = scope)
    (hbranch : branch.scope = scope) :
    made.scope = scope ∧ ∀ name bound, table.value (made.effective? forest name) ≤ bound ↔
      table.value (known.effective? forest name) ≤ bound ∧
        table.value (branch.effective? forest name) ≤ bound := by
  have hnear : forest.NearestAround ([known, branch].map Flow.scope) scope :=
    Forest.nearestAround_of_forall (List.cons_ne_nil _ _) (by simp [hknown, hbranch])
  have hsize : scope.raw < forest.scopes.size :=
    hknown ▸ Forest.lt_size_of_mem_path (hmerges.mem_path List.mem_cons_self)
  have hscope : made.scope = scope :=
    hforest.nearestAround_unique hmerges.live.lt_size hsize hmerges.scope hnear
  refine ⟨hscope, fun name bound => ?_⟩
  have hseenK : known.seen? forest scope name = known.effective? forest name := hknown ▸ seen?_self
  have hseenB : branch.seen? forest scope name = branch.effective? forest name :=
    hbranch ▸ seen?_self
  rw [(hmerges.joined name).least, hscope]
  simp [hseenK, hseenB]

/-- A round keeps to the names and parts that are given, and no type falls in it. -/
theorem Within.join (hforest : forest.Sound) (htable : table.Sound) (htyped : forest.Typed table)
    (hlive : forest.Live scope) (hknown : known.Within forest table scope names parts)
    (hbranch : branch.Within forest table scope names parts) (stamp : ℕ) :
    ∃ made later, table.Settles (join stamp forest [known, branch]) made later ∧
      made.Within forest later scope names parts ∧
      ∀ name, later.value (known.effective? forest name) ≤
        later.value (made.effective? forest name) := by
  have hreachable : [known, branch].filter (isReachable forest) = [known, branch] := by
    simp only [List.filter_eq_self, List.forall_mem_cons, isReachable_iff, hknown.scope_eq,
      hbranch.scope_eq]
    exact ⟨hlive, hlive, fun _ hmem => absurd hmem List.not_mem_nil⟩
  have hfits : ∀ flow ∈ [known, branch], flow.Fits forest table := by
    simp [hknown.fits, hbranch.fits]
  obtain ⟨made, later, hsettles, hgives⟩ := join_settles hforest htable htyped stamp
    (List.cons_ne_nil known [branch]) (fun flow hflow => (hfits flow hflow).scope)
    (hreachable.symm ▸ hfits)
  have hmerges := hgives.of_ne_nil (hreachable.symm ▸ List.cons_ne_nil _ _)
  rw [hreachable] at hmerges
  obtain ⟨hscope, hleast⟩ := hmerges.value_le_iff hforest hknown.scope_eq hbranch.scope_eq
  have hknown := hknown.grow hforest htyped hsettles.grows
  have hbranch := hbranch.grow hforest htyped hsettles.grows
  refine ⟨made, later, hsettles, ⟨hscope, hmerges.fits, fun name hname => ?_, fun name hname => ?_⟩,
    fun name => ((hleast name _).mp le_rfl).1⟩
  · have hholds := (htyped.grow hsettles.grows).declared hforest scope name
    apply hsettles.sound.eq_of_value_eq (hmerges.joined name).holds hholds
    refine eq_of_forall_ge_iff fun bound => ?_
    rw [hleast, hknown.declared name hname, hbranch.declared name hname, and_self]
  · exact (hleast name _).mpr ⟨hknown.bounded name hname, hbranch.bounded name hname⟩

private theorem Within.exists_lt (hforest : forest.Sound) (htable : table.Sound)
    (htyped : forest.Typed table) (hknown : known.Within forest table scope names parts)
    (hmade : made.Within forest table scope names parts)
    (hle : ∀ name, table.value (known.effective? forest name) ≤
      table.value (made.effective? forest name))
    (hdiffers : agrees table forest made known = .ok false) :
    ∃ name ∈ names, table.value (known.effective? forest name) <
      table.value (made.effective? forest name) := by
  -- If none had risen, all types would be as before, and the rounds would agree.
  by_contra hnone
  have hsame : ∀ name, made.effective? forest name = known.effective? forest name := by
    intro name
    by_cases hname : name ∈ names
    · apply htable.eq_of_value_eq (hmade.fits.effective hforest htyped name)
        (hknown.fits.effective hforest htyped name)
      exact ((hle name).eq_of_not_lt fun hlt => hnone ⟨name, hname, hlt⟩).symm
    · rw [hmade.declared name hname, hknown.declared name hname]
  have hagrees : agrees table forest made known = .ok true :=
    agrees_of_effective hforest hmade.fits.names hknown.fits.names hmade.fits.scope
      (hmade.scope_eq.trans hknown.scope_eq.symm) hsame
  cases hagrees.symm.trans hdiffers

private def potential (forest : Forest) (table : TypeTable) (names : Finset Name) (flow : Flow) :
    ℕ :=
  ∑ name ∈ names, table.rank (flow.effective? forest name)

private theorem Within.potential_le (hwithin : flow.Within forest table scope names parts) :
    potential forest table names flow ≤ names.card * (parts.card + 1) :=
  Finset.sum_le_card_nsmul names _ _ fun name hname =>
    TypeTable.rank_le_of_value_le_coe (hwithin.bounded name hname)

private theorem Within.potential_grow (hforest : forest.Sound) (htyped : forest.Typed table)
    (hwithin : flow.Within forest table scope names parts) (hgrows : table.Grows later) :
    potential forest later names flow = potential forest table names flow :=
  Finset.sum_congr rfl fun name _ => hgrows.rank (hwithin.fits.effective hforest htyped name)

private theorem encard_rises_le {f : ℕ → ℕ} (hf : Monotone f) {bound : ℕ}
    (hbound : ∀ k, f k ≤ bound) : {k | f k < f (k + 1)}.encard ≤ bound := by
  -- At each rise the quantity has a value of its own, and all of these are below the bound.
  have hmaps : Set.MapsTo f {k | f k < f (k + 1)} (Finset.range bound) :=
    fun k hk => Finset.mem_coe.mpr (Finset.mem_range.mpr (lt_of_lt_of_le hk (hbound (k + 1))))
  have hstrict : StrictMonoOn f {k | f k < f (k + 1)} :=
    fun k hk k' _ hlt => lt_of_lt_of_le hk (hf hlt)
  have hle := Set.encard_le_encard_of_injOn hmaps hstrict.injOn
  rwa [Set.encard_coe_eq_coe_finsetCard, Finset.card_range] at hle

/-- What one round makes of what was known: it keeps to some names and parts, and no type falls. -/
structure Round (forest : Forest) (scope : ScopeId) (names : Finset Name) (parts : Finset TypeId)
    (known made : Flow) (table later : TypeTable) : Prop where
  sound : table.Sound
  typed : forest.Typed table
  within : known.Within forest table scope names parts
  grows : table.Grows later
  le : ∀ name, later.value (known.effective? forest name) ≤ later.value (made.effective? forest name)

section Rounds
variable {learn : ℕ → TypeTable → TypeTable} {stamp : ℕ} {start : Flow} {branches : ℕ → Flow}

private theorem accumulated_succ (hforest : forest.Sound) (hlive : forest.Live scope)
    (hlearn : ∀ k, TypeTable.Learns (learn k)) {current : TypeTable} {k : ℕ}
    (hrun : (accumulated forest learn stamp start branches k).run.run table = (.ok known, current))
    (hcurrent : current.Sound) (htyped : forest.Typed current)
    (hknown : known.Within forest current scope names parts)
    (hbranch : (branches k).Within forest current scope names parts) :
    ∃ made later, (accumulated forest learn stamp start branches (k + 1)).run.run table =
        (.ok made, later) ∧
      later.Sound ∧ made.Within forest later scope names parts ∧
      Round forest scope names parts known made current later := by
  obtain ⟨made, between, hsettles, hmade, hle⟩ :=
    hknown.join hforest hcurrent htyped hlive hbranch (stamp + k)
  have hlearnt := (hlearn k).grows between hsettles.sound
  have htypedB := htyped.grow hsettles.grows
  refine ⟨made, learn k between, ?_, (hlearn k).sound between hsettles.sound,
    hmade.grow hforest htypedB hlearnt,
    ⟨hcurrent, htyped, hknown, hsettles.grows.trans hlearnt, fun name => ?_⟩⟩
  · rw [accumulated, run_bind_of_ok hrun, run_bind_of_ok hsettles.run, run_always]
  · have hholds := (hknown.fits.grow hsettles.grows).effective hforest htypedB name
    rw [hlearnt.value hholds, hlearnt.value (hmade.fits.effective hforest htypedB name)]
    exact hle name

private theorem exists_rounds (hforest : forest.Sound) (hlive : forest.Live scope)
    (htable : table.Sound) (htyped : forest.Typed table)
    (hlearn : ∀ k, TypeTable.Learns (learn k))
    (hdeclared : ∀ name ∈ names, table.value (forest.declared? scope name) ≤ parts)
    (hstart : start.Brings forest table scope names parts)
    (hbranches : ∀ k known current,
      (accumulated forest learn stamp start branches k).run.run table = (.ok known, current) →
        table.Grows current → (branches k).Brings forest current scope names parts) :
    ∃ (acc : ℕ → Flow) (tables : ℕ → TypeTable),
      (∀ k, (accumulated forest learn stamp start branches k).run.run table =
        (.ok (acc k), tables k)) ∧
      ∀ k, Round forest scope names parts (acc k) (acc (k + 1)) (tables k) (tables (k + 1)) := by
  have hbranch : ∀ {k known current},
      (accumulated forest learn stamp start branches k).run.run table = (.ok known, current) →
        table.Grows current → (branches k).Within forest current scope names parts := by
    intro k known current hrun hgrows
    refine (hbranches k known current hrun hgrows).within fun name hname => ?_
    rw [hgrows.value (htyped.declared hforest scope name)]
    exact hdeclared name hname
  have hreach : ∀ k, ∃ known current,
      (accumulated forest learn stamp start branches k).run.run table = (.ok known, current) ∧
        table.Grows current ∧ current.Sound ∧
        known.Within forest current scope names parts := by
    intro k
    induction k with
    | zero => exact ⟨start, table, rfl, .refl table, htable, hstart.within hdeclared⟩
    | succ k ih =>
      obtain ⟨known, current, hrun, hgrows, hcurrent, hknown⟩ := ih
      obtain ⟨made, later, hrun', hlater, hmade, hround⟩ := accumulated_succ hforest hlive
        hlearn hrun hcurrent (htyped.grow hgrows) hknown (hbranch hrun hgrows)
      exact ⟨made, later, hrun', hgrows.trans hround.grows, hlater, hmade⟩
  choose acc tables hrun hgrows hsound hwithin using hreach
  refine ⟨acc, tables, hrun, fun k => ?_⟩
  obtain ⟨made, later, hrun', _, _, hround⟩ := accumulated_succ hforest hlive hlearn (hrun k)
    (hsound k) (htyped.grow (hgrows k)) (hwithin k) (hbranch (hrun k) (hgrows k))
  obtain ⟨hmade, rfl⟩ := Prod.mk.inj ((hrun (k + 1)).symm.trans hrun')
  obtain rfl := Except.ok.inj hmade
  exact hround

/-- However often flow scopes of one reachable scope are joined one after another, with new types
coming in between, the result disagrees with the one before at most as often as there are names that
are refined, times one more than the parts of the types that are refined or declared for them. -/
theorem accumulated_converges (hforest : forest.Built) (hlive : forest.Live scope)
    (htable : table.Built) (htyped : forest.Typed table)
    (hlearn : ∀ k, TypeTable.Learns (learn k))
    (hdeclared : ∀ name ∈ names, ∀ type, forest.declaredType scope name = .ok (some type) →
      table.parts type ⊆ parts)
    (hstart : start.Brings forest table scope names parts)
    (hbranches : ∀ k known current,
      (accumulated forest learn stamp start branches k).run.run table = (.ok known, current) →
        table.Grows current → (branches k).Brings forest current scope names parts) :
    ∃ (acc : ℕ → Flow) (tables : ℕ → TypeTable),
      (∀ k, (accumulated forest learn stamp start branches k).run.run table =
        (.ok (acc k), tables k)) ∧
      (∀ k, ∃ answer, agrees (tables (k + 1)) forest (acc (k + 1)) (acc k) = .ok answer) ∧
      {k | agrees (tables (k + 1)) forest (acc (k + 1)) (acc k) = .ok false}.encard ≤
        (names.card * (parts.card + 1) : ℕ) := by
  have hsound := hforest.sound
  have hvalues : ∀ name ∈ names, table.value (forest.declared? scope name) ≤ parts := by
    intro name hname
    cases hfound : forest.declared? scope name with
    | none => exact bot_le
    | some type =>
      refine WithBot.coe_le_coe.mpr (hdeclared name hname type ?_)
      exact Forest.declaredType_of_declared? hfound
  obtain ⟨acc, tables, hruns, hrounds⟩ := exists_rounds hsound hlive htable.sound htyped hlearn
    hvalues hstart hbranches
  refine ⟨acc, tables, hruns, fun k => ?_, ?_⟩
  · have hknown := (hrounds k).within
    have hmade := (hrounds (k + 1)).within
    exact hmade.fits.placed.exists_agrees hsound hknown.fits.placed
      (hmade.scope_eq.trans hknown.scope_eq.symm) _
  · let risen := fun k => potential forest (tables k) names (acc k)
    have hsums : ∀ k, risen k = ∑ name ∈ names,
        (tables (k + 1)).rank ((acc k).effective? forest name) := fun k =>
      ((hrounds k).within.potential_grow hsound (hrounds k).typed (hrounds k).grows).symm
    have hmono : Monotone risen := by
      refine monotone_nat_of_le_succ fun k => ?_
      rw [hsums]
      exact Finset.sum_le_sum fun name _ => TypeTable.rank_mono ((hrounds k).le name)
    have hbound : ∀ k, risen k ≤ names.card * (parts.card + 1) :=
      fun k => (hrounds k).within.potential_le
    refine (Set.encard_le_encard fun k hdiffers => ?_).trans (encard_rises_le hmono hbound)
    have hround := hrounds k
    have hlater := hrounds (k + 1)
    obtain ⟨name, hname, hlt⟩ := Within.exists_lt hsound hlater.sound hlater.typed
      (hround.within.grow hsound hround.typed hround.grows) hlater.within hround.le hdiffers
    change risen k < risen (k + 1)
    rw [hsums]
    exact Finset.sum_lt_sum (fun other _ => TypeTable.rank_mono (hround.le other))
      ⟨name, hname, TypeTable.rank_strictMono hlt⟩

end Rounds

private def alternating (k : ℕ) : Flow := (entry (10 + k) ⟨0⟩).refine (20 + k) ⟨5⟩ ⟨k % 2⟩

private theorem alternating_brings (k : ℕ) :
    (alternating k).Brings crossing TypeTable.basic ⟨0⟩ {⟨5⟩} {⟨0⟩, ⟨1⟩, ⟨2⟩} := by
  have htypes : ∀ type : Fin 2, TypeTable.basic.Known ⟨type⟩ ∧
      TypeTable.basic.parts ⟨type⟩ ⊆ {⟨0⟩, ⟨1⟩, ⟨2⟩} := by decide +kernel
  obtain ⟨hknown, hparts⟩ := htypes ⟨k % 2, Nat.mod_lt k (by decide)⟩
  have hscope : (⟨0⟩ : ScopeId).raw < crossing.scopes.size := by decide +kernel
  refine ⟨rfl, (fits_entry (10 + k) hscope).refine (20 + k) crossing_interned hknown, ?_, ?_⟩
  · intro name hname
    rw [alternating, mem_slotNames, refinement?_refine] at hname
    split at hname
    next hsame => exact Finset.mem_singleton.mpr hsame.symm
    next => simp at hname
  · intro name type htype
    rw [alternating, refinement?_refine] at htype
    split at htype
    next =>
      rw [← Option.some.inj htype]
      exact hparts
    next => simp at htype

private def naming (_ : ℕ) (table : TypeTable) : TypeTable := (table.function none).2

private theorem naming_learns (k : ℕ) : TypeTable.Learns (naming k) :=
  ⟨fun table _ => (table.interned (.function none)).grows,
    fun _ hsound => hsound.intern fun members heq => by cases heq⟩

theorem accumulated_converges_of_alternating :
    ∃ (acc : ℕ → Flow) (tables : ℕ → TypeTable),
      (∀ k, (accumulated crossing naming 50 (alternating 0) alternating k).run.run
        TypeTable.basic = (.ok (acc k), tables k)) ∧
      (∀ k, ∃ answer, agrees (tables (k + 1)) crossing (acc (k + 1)) (acc k) = .ok answer) ∧
      {k | agrees (tables (k + 1)) crossing (acc (k + 1)) (acc k) = .ok false}.encard ≤
        (4 : ℕ) := by
  have hlive : crossing.Live ⟨0⟩ := isReachable_iff.mp (by decide +kernel : (entry 0 ⟨0⟩).isReachable
    crossing = true)
  have hdeclared : ∀ name ∈ ({⟨5⟩} : Finset Name), ∀ type,
      crossing.declaredType ⟨0⟩ name = .ok (some type) →
        TypeTable.basic.parts type ⊆ {⟨0⟩, ⟨1⟩, ⟨2⟩} := by
    have hx : crossing.declaredType ⟨0⟩ ⟨5⟩ = .ok (some ⟨2⟩) := by decide +kernel
    intro name hname type htype
    rw [Finset.mem_singleton.mp hname, hx] at htype
    cases htype
    decide +kernel
  exact accumulated_converges crossing_built hlive TypeTable.Built.basic crossing_typed
    naming_learns hdeclared (alternating_brings 0)
    fun k _ _ _ hgrows => (alternating_brings k).grow hgrows

end FlowTyping.Flow
