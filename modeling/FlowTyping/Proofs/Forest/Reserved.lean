import FlowTyping.Proofs.Forest.Eventual
import FlowTyping.Proofs.Forest.Root
import FlowTyping.Proofs.Forest.WellFormed
import Mathlib.Data.List.Forall2

/-!
# Validation of reserved names

Validation of a scope goes through if no names are reserved in it any more. Otherwise it reports the
spellings of those that are, each once and in order: different names have different spellings.
Validation of all scopes stops at the first that is not complete.
-/
namespace FlowTyping.Forest
variable {forest : Forest} {id : ScopeId} {name : Name} {names : List Name}

/-- A list of spellings is that of some names: it has each of them once, in code point order. -/
structure Lists (forest : Forest) (names : Name → Prop) (texts : List String) : Prop where
  sorted : texts.Pairwise (· < ·)
  complete : ∀ name, names name → ∃ text ∈ texts, forest.spelling name = .ok text
  exact : ∀ text ∈ texts, ∃ name, names name ∧ forest.spelling name = .ok text

theorem spelling_eq_ok_iff {text : String} :
    forest.spelling name = .ok text ↔ forest.names.spelling? name = some text := by
  unfold spelling
  split <;> simp_all

theorem pairwise_le_mergeSort (texts : List String) :
    (texts.mergeSort fun a b => decide (a ≤ b)).Pairwise (· ≤ ·) := by
  have htrans : ∀ a b c : String, decide (a ≤ b) = true → decide (b ≤ c) = true →
      decide (a ≤ c) = true := by
    simp only [decide_eq_true_eq]
    exact fun _ _ _ => String.le_trans
  have htotal : ∀ a b : String, (decide (a ≤ b) || decide (b ≤ a)) = true := by
    simpa using String.le_total
  simpa using List.pairwise_mergeSort htrans htotal texts

/-- The spellings of different names can be listed. -/
theorem exists_lists (hnames : forest.names.Sound) (hnodup : names.Nodup)
    (hspelled : ∀ name ∈ names, ∃ text, forest.spelling name = .ok text) :
    ∃ texts, names.mapM forest.spelling = .ok texts ∧
      forest.Lists (· ∈ names) (texts.mergeSort fun a b => decide (a ≤ b)) := by
  obtain ⟨texts, htexts⟩ := Except.exists_mapM hspelled
  have hperm := List.mergeSort_perm texts fun a b => decide (a ≤ b)
  have hmem : ∀ text, text ∈ texts.mergeSort (fun a b => decide (a ≤ b)) ↔
      ∃ name ∈ names, forest.spelling name = .ok text :=
    fun text => hperm.mem_iff.trans (Except.mem_of_mapM htexts text)
  refine ⟨texts, htexts, ?_, fun name hname => ?_, fun text htext => (hmem text).mp htext⟩
  · -- Names and spellings determine each other, so no spelling comes twice.
    have hunique : Relator.BiUnique fun name text => forest.spelling name = .ok text := by
      constructor
      · intro name text other hname hother
        rw [spelling_eq_ok_iff] at hname hother
        exact (hnames.eq_iff hname hother).mpr rfl
      · exact fun name text other htext hother => Except.ok.inj (htext.symm.trans hother)
    have hdistinct : texts.Nodup :=
      (List.rel_nodup hunique (Except.mapM_eq_ok_iff.mp htexts)).mp hnodup
    have hsorted := (pairwise_le_mergeSort texts).and (hperm.nodup_iff.mpr hdistinct)
    exact hsorted.imp fun ⟨hle, hne⟩ =>
      String.not_le.mp fun hge => hne (String.le_antisymm hle hge)
  · obtain ⟨text, htext⟩ := hspelled name hname
    exact ⟨text, (hmem text).mpr ⟨name, hname, htext⟩, htext⟩

theorem nodup_reserved (scope : Scope) : scope.reserved.toList.Nodup :=
  Std.ExtTreeSet.distinct_toList.imp fun hapart hsame =>
    hapart (Std.LawfulEqOrd.compare_eq_iff_eq.mpr hsame)

/-- Validation of a scope tells whether names are still reserved there, and which. -/
theorem Built.tryValidate_spec (hbuilt : forest.Built) {scope : Scope}
    (hscope : forest.scopes[id.raw]? = some scope) :
    ∃ verdict, forest.tryValidate id = .ok verdict ∧
      (verdict = .ok () ↔ ∀ name, name ∉ scope.reserved) ∧
      ∀ error, verdict = .error error → ∃ texts, error = .reservedNamesRemain id texts ∧
        forest.Lists (· ∈ scope.reserved) texts := by
  have hspelled : ∀ name ∈ scope.reserved.toList, ∃ text, forest.spelling name = .ok text := by
    intro name hname
    have hreserved := (hbuilt.whole.scopes hscope).reserved (Std.ExtTreeSet.mem_toList.mp hname)
    obtain ⟨text, htext, _⟩ := hreserved.1
    exact ⟨text, spelling_eq_ok_iff.mpr htext⟩
  obtain ⟨texts, htexts, hlists⟩ :=
    exists_lists hbuilt.names_sound (nodup_reserved scope) hspelled
  simp only [Std.ExtTreeSet.mem_toList] at hlists
  rw [tryValidate_eq, scope_eq_ok_iff.mpr hscope, Except.ok_bind]
  dsimp only
  rw [htexts, ← Std.ExtTreeSet.eq_empty_iff_forall_not_mem, ← Std.ExtTreeSet.isEmpty_iff]
  cases hempty : scope.reserved.isEmpty with
  | true => exact ⟨.ok (), rfl, by simp, by rintro _ ⟨⟩⟩
  | false =>
    refine ⟨_, rfl, by simp, ?_⟩
    rintro _ ⟨⟩
    exact ⟨_, rfl, hlists⟩

/-- Scopes that are validated in the order of their numbers are all complete, or the first that is
not decides. -/
theorem Built.tryValidateEach_spec (hbuilt : forest.Built) {indices : List Nat}
    (hindices : ∀ i ∈ indices, i < forest.scopes.size) (hordered : indices.Pairwise (· < ·)) :
    ∃ verdict, forest.tryValidateEach indices = .ok verdict ∧
      (verdict = .ok () ↔ ∀ i ∈ indices, forest.tryValidate ⟨i⟩ = .ok (.ok ())) ∧
      ∀ error, verdict = .error error →
        ∃ i ∈ indices, forest.tryValidate ⟨i⟩ = .ok (.error error) ∧
          ∀ j ∈ indices, j < i → forest.tryValidate ⟨j⟩ = .ok (.ok ()) := by
  induction indices with
  | nil => exact ⟨.ok (), rfl, by simp, by rintro _ ⟨⟩⟩
  | cons index indices ih =>
    obtain ⟨hindex, hindices⟩ := List.forall_mem_cons.mp hindices
    obtain ⟨hfirst, hordered⟩ := List.pairwise_cons.mp hordered
    obtain ⟨verdict, hverdict, _⟩ := hbuilt.tryValidate_spec (Array.getElem?_eq_getElem hindex)
    have hnumber := number_of_lt .scope (Nat.lt_of_lt_of_le hindex hbuilt.sized.scopes)
    rw [tryValidateEach_cons, hnumber, Except.ok_bind, hverdict, Except.ok_bind]
    cases verdict with
    | error error =>
      refine ⟨.error error, rfl, by simp [hverdict], ?_⟩
      rintro _ ⟨⟩
      refine ⟨index, List.mem_cons_self, hverdict, fun other hother hlt => ?_⟩
      rcases List.mem_cons.mp hother with rfl | hother
      · exact absurd hlt (Nat.lt_irrefl _)
      · exact absurd hlt (Nat.lt_asymm (hfirst other hother))
    | ok complete =>
      -- The first scope is complete, so it is before whichever of the others decides.
      obtain ⟨answer, hanswer, hiff, hrefused⟩ := ih hindices hordered
      refine ⟨answer, hanswer, by simp [hiff, hverdict], fun error herror => ?_⟩
      obtain ⟨last, hlast, hvalidate, hbefore⟩ := hrefused error herror
      refine ⟨last, List.mem_cons_of_mem index hlast, hvalidate, fun other hother hlt => ?_⟩
      rcases List.mem_cons.mp hother with rfl | hother
      · exact hverdict
      · exact hbefore other hother hlt

/-- Validation of all scopes reports the error of the scope with the lowest number that has one. -/
theorem Built.tryValidateAll_spec (hbuilt : forest.Built) :
    ∃ verdict, forest.tryValidateAll = .ok verdict ∧
      (verdict = .ok () ↔ ∀ i < forest.scopes.size, forest.tryValidate ⟨i⟩ = .ok (.ok ())) ∧
      ∀ error, verdict = .error error → ∃ i < forest.scopes.size,
        forest.tryValidate ⟨i⟩ = .ok (.error error) ∧
          ∀ j < i, forest.tryValidate ⟨j⟩ = .ok (.ok ()) := by
  obtain ⟨verdict, hverdict, hiff, hrefused⟩ :=
    hbuilt.tryValidateEach_spec (fun _ => List.mem_range.mp) List.pairwise_lt_range
  simp only [List.mem_range] at hiff hrefused
  refine ⟨verdict, hverdict, hiff, fun error herror => ?_⟩
  obtain ⟨i, hi, hvalidate, hbefore⟩ := hrefused error herror
  exact ⟨i, hi, hvalidate, fun j hj => hbefore j (Nat.lt_trans hj hi) hj⟩

end FlowTyping.Forest
