import FlowTyping.Flow

/-!
# Retained entries

A test that may fault keeps the entries for which it answers yes. It has an answer for every entry
if nothing faulted.
-/
namespace FlowTyping.Slots

private theorem answered_of_foldlM {keep : Name → Except Fault Bool} {names : List Name}
    {slots kept : Slots}
    (hrun : names.foldlM (fun kept name => do
      return if ← keep name then kept else kept.erase name) slots = .ok kept) :
    ∀ name ∈ names, ∃ answer, keep name = .ok answer := by
  induction names generalizing slots with
  | nil => simp
  | cons first names ih =>
    rw [List.foldlM_cons] at hrun
    cases hfirst : keep first with
    | error fault =>
      rw [hfirst] at hrun
      cases hrun
    | ok answer =>
      rw [hfirst] at hrun
      have hrest := ih hrun
      intro name hname
      rcases List.mem_cons.mp hname with rfl | hname
      · exact ⟨answer, hfirst⟩
      · exact hrest name hname

theorem answered_of_retain {slots kept : Slots} {keep : Name → Except Fault Bool}
    (hkept : slots.retain keep = .ok kept) {name : Name} (hname : name ∈ slots) :
    ∃ answer, keep name = .ok answer :=
  answered_of_foldlM hkept name (Std.ExtTreeMap.mem_keys.mpr hname)

/-- The answer of a test, where a fault counts as no. -/
private def answer (test : Except Fault Bool) : Bool :=
  match test with
  | .ok yes => yes
  | .error _ => false

private theorem answer_eq_true {test : Except Fault Bool} : answer test = true ↔ test = .ok true := by
  cases test <;> simp [answer]

private theorem eq_filter_of_retain {slots kept : Slots} {keep : Name → Except Fault Bool}
    (hkept : slots.retain keep = .ok kept) :
    kept = slots.filter fun name _ => answer (keep name) := by
  have htest : ∀ name ∈ slots, keep name = .ok (answer (keep name)) := by
    intro name hname
    obtain ⟨yes, hyes⟩ := answered_of_retain hkept hname
    rw [hyes, answer]
  exact Except.ok.inj (hkept.symm.trans (retain_eq_filter htest))

/-- Exactly the entries are kept for which the test says yes. -/
theorem getElem?_retain {slots kept : Slots} {keep : Name → Except Fault Bool}
    (hkept : slots.retain keep = .ok kept) {name : Name} {type : TypeId} :
    kept[name]? = some type ↔ slots[name]? = some type ∧ keep name = .ok true := by
  rw [eq_filter_of_retain hkept, Std.ExtTreeMap.getElem?_filter', Option.filter_eq_some_iff,
    answer_eq_true]

/-- Nothing was dropped if the test says yes for every entry. -/
theorem eq_iff_of_retain {slots kept : Slots} {keep : Name → Except Fault Bool}
    (hkept : slots.retain keep = .ok kept) :
    kept = slots ↔ ∀ name ∈ slots, keep name = .ok true := by
  constructor
  · rintro rfl name hname
    obtain ⟨type, htype⟩ := Option.isSome_iff_exists.mp
      (Std.ExtTreeMap.mem_iff_isSome_getElem?.mp hname)
    exact ((getElem?_retain hkept).mp htype).2
  · intro hall
    refine Std.ExtTreeMap.ext_getElem? fun name => Option.ext fun type => ?_
    rw [getElem?_retain hkept]
    refine and_iff_left_of_imp fun htype => hall name ?_
    rw [Std.ExtTreeMap.mem_iff_isSome_getElem?, htype]
    rfl

/-- If as many entries are left as there were, nothing was dropped. -/
theorem eq_of_retain_of_size {slots kept : Slots} {keep : Name → Except Fault Bool}
    (hkept : slots.retain keep = .ok kept) (hsize : kept.size = slots.size) : kept = slots := by
  have hfilter := eq_filter_of_retain hkept
  rw [hfilter, Std.ExtTreeMap.size_filter_eq_size_iff] at hsize
  apply Std.ExtTreeMap.ext_getElem?
  intro name
  rw [hfilter, Std.ExtTreeMap.getElem?_filter']
  cases hslot : slots[name]? with
  | none => rfl
  | some type =>
    have hname : name ∈ slots := by
      rw [Std.ExtTreeMap.mem_iff_isSome_getElem?, hslot]
      rfl
    have hyes := hsize name hname
    rw [Std.ExtTreeMap.getKey_eq] at hyes
    rw [Option.filter_some, if_pos hyes]

/-- A test that says yes throughout drops nothing. -/
theorem retain_of_forall {slots : Slots} {keep : Name → Except Fault Bool}
    (hyes : ∀ name, keep name = .ok true) : slots.retain keep = .ok slots := by
  have hkept : slots.retain keep = .ok (slots.filter fun _ _ => true) :=
    retain_eq_filter fun name _ => hyes name
  rw [hkept]
  refine congrArg Except.ok (Std.ExtTreeMap.ext_getElem? fun name => ?_)
  rw [Std.ExtTreeMap.getElem?_filter']
  cases slots[name]? <;> rfl

end FlowTyping.Slots
