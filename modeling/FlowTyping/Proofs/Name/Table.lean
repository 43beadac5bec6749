import FlowTyping.Name.Table
import Mathlib.Data.List.Nodup
import Mathlib.Data.List.Perm.Subperm

/-!
# Sound name tables

In every table that interning can make, the index and the spellings are inverse to each other.
-/
namespace FlowTyping.NameTable
variable {table : NameTable}

/-- The index of a table finds a name exactly under the spelling of the name. -/
def Sound (table : NameTable) : Prop :=
  ∀ spelling name, table.find? spelling = some name ↔ table.spelling? name = some spelling

theorem sound_empty : Sound ⟨#[], ∅⟩ := by
  intro spelling name
  simp [find?, spelling?]

theorem Sound.intern (hsound : table.Sound) (spelling : String) :
    (table.intern spelling).2.Sound := by
  cases hknown : table.find? spelling with
  | some name =>
    simp only [NameTable.intern, hknown]
    exact hsound
  | none =>
    have hlater : (table.intern spelling).2.spellings = table.spellings.push spelling := by
      simp only [NameTable.intern, hknown]
    have hnew : (table.intern spelling).1 = ⟨table.size⟩ := by
      simp only [NameTable.intern, hknown]
    intro other name
    rw [find?_intern, hnew, spelling?, hlater, Array.getElem?_push]
    by_cases hraw : name.raw = table.spellings.size
    · -- No older spelling has the new name.
      have hname : name = ⟨table.size⟩ := Handle.ext hraw
      have hnone : table.find? other ≠ some name := by
        intro hfound
        have hold := (hsound other name).mp hfound
        rw [spelling?, hraw] at hold
        simp at hold
      rw [if_pos hraw, hname]
      rw [hname] at hnone
      by_cases hsame : spelling = other <;> simp [hsame, hnone]
    · -- The new spelling has no older name.
      have hname : name ≠ ⟨table.size⟩ := fun heq => hraw (congrArg Handle.raw heq)
      rw [if_neg hraw, ← spelling?, ← hsound]
      by_cases hsame : spelling = other
      · rw [if_pos hsame, ← hsame, hknown]
        simp [hname.symm]
      · rw [if_neg hsame]

/-- Names are the same if their spellings are. -/
theorem Sound.eq_iff (hsound : table.Sound) {name other : Name} {spelling spelling' : String}
    (hname : table.spelling? name = some spelling)
    (hother : table.spelling? other = some spelling') : name = other ↔ spelling = spelling' := by
  constructor
  · rintro rfl
    exact Option.some.inj (hname.symm.trans hother)
  · rintro rfl
    rw [← hsound] at hname hother
    exact Option.some.inj (hname.symm.trans hother)

def entering (table : NameTable) (spellings : List String) : NameTable :=
  spellings.foldl (fun table spelling => (table.intern spelling).2) table

theorem Sound.entering (hsound : table.Sound) (spellings : List String) :
    (table.entering spellings).Sound := by
  induction spellings generalizing table with
  | nil => exact hsound
  | cons spelling spellings ih => exact ih (hsound.intern spelling)

theorem sound_initial : initial.Sound :=
  sound_empty.entering preset

/-! ## The spellings of a table -/

theorem intern_of_known {spelling : String} {name : Name}
    (hknown : table.find? spelling = some name) : table.intern spelling = (name, table) := by
  simp [NameTable.intern, hknown]

theorem intern_of_new {spelling : String} (hnew : table.find? spelling = none) :
    table.intern spelling = (⟨table.size⟩,
      ⟨table.spellings.push spelling, table.index.insert spelling ⟨table.size⟩⟩) := by
  simp [NameTable.intern, hnew]

/-- Interning leaves the spellings as they are and adds at most one at their end. -/
theorem prefix_intern (table : NameTable) (spelling : String) :
    table.spellings.toList <+: (table.intern spelling).2.spellings.toList := by
  cases hknown : table.find? spelling with
  | some name => simp [intern_of_known hknown]
  | none => simp [intern_of_new hknown]

theorem prefix_entering (table : NameTable) (spellings : List String) :
    table.spellings.toList <+: (table.entering spellings).spellings.toList := by
  induction spellings generalizing table with
  | nil => exact List.prefix_refl _
  | cons spelling spellings ih => exact (table.prefix_intern spelling).trans (ih _)

theorem entering_append (table : NameTable) (spellings more : List String) :
    table.entering (spellings ++ more) = (table.entering spellings).entering more :=
  List.foldl_append

theorem Sound.mem_spellings_iff (hsound : table.Sound) (spelling : String) :
    spelling ∈ table.spellings.toList ↔ ∃ name, table.find? spelling = some name := by
  rw [List.mem_iff_getElem?]
  constructor
  · rintro ⟨i, hi⟩
    exact ⟨⟨i⟩, (hsound spelling ⟨i⟩).mpr (by simpa [spelling?] using hi)⟩
  · rintro ⟨name, hname⟩
    exact ⟨name.raw, by simpa [spelling?] using (hsound spelling name).mp hname⟩

theorem Sound.mem_spellings_intern (hsound : table.Sound) (spelling other : String) :
    other ∈ (table.intern spelling).2.spellings.toList ↔
      other ∈ table.spellings.toList ∨ other = spelling := by
  rw [(hsound.intern spelling).mem_spellings_iff, hsound.mem_spellings_iff, find?_intern]
  by_cases hsame : spelling = other
  · simp [hsame]
  · simp [hsame, Ne.symm hsame]

/-- A table holds what it held before and what was entered since. -/
theorem Sound.mem_spellings_entering (hsound : table.Sound) (spellings : List String)
    (other : String) : other ∈ (table.entering spellings).spellings.toList ↔
      other ∈ table.spellings.toList ∨ other ∈ spellings := by
  induction spellings generalizing table with
  | nil => simp [NameTable.entering]
  | cons spelling spellings ih =>
    have hrest := ih (hsound.intern spelling)
    rw [hsound.mem_spellings_intern] at hrest
    simpa [NameTable.entering, or_assoc] using hrest

theorem Sound.nodup_spellings (hsound : table.Sound) : table.spellings.toList.Nodup := by
  rw [List.nodup_iff_getElem?_ne_getElem?]
  intro i j hij hj hsame
  have hsecond : table.spelling? ⟨j⟩ = some table.spellings.toList[j] := by
    rw [spelling?, ← Array.getElem?_toList]
    exact List.getElem?_eq_getElem hj
  have hfirst : table.spelling? ⟨i⟩ = table.spelling? ⟨j⟩ := by
    simpa only [spelling?, Array.getElem?_toList] using hsame
  rw [hsecond, ← hsound] at hfirst
  rw [← hsound, hfirst, Option.some.injEq, Handle.mk.injEq] at hsecond
  omega

/-- Nothing but the preset spellings was entered in a table that holds no others. -/
theorem isPreset_entering_iff (spellings : List String) :
    (initial.entering spellings).isPreset = true ↔ ∀ spelling ∈ spellings, spelling ∈ preset := by
  have hmem := sound_initial.mem_spellings_entering spellings
  have hstart : initial.spellings.toList = preset := by decide +kernel
  have hpre := prefix_entering initial spellings
  rw [hstart] at hpre
  simp only [hstart] at hmem
  rw [isPreset, decide_eq_true_iff, size, ← Array.length_toList]
  constructor
  · intro hsize spelling hspelling
    rw [hpre.eq_of_length_le hsize]
    exact (hmem spelling).mpr (.inr hspelling)
  · intro hall
    have hnodup := (sound_initial.entering spellings).nodup_spellings
    apply (List.subperm_of_subset hnodup _).length_le
    intro spelling hspelling
    rcases (hmem spelling).mp hspelling with hpreset | hentered
    · exact hpreset
    · exact hall spelling hentered

end FlowTyping.NameTable
