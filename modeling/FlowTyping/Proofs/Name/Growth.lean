import FlowTyping.Name.Reference
import FlowTyping.Proofs.Name.Table

/-!
# Tables that grow

Interning leaves every name its spelling. So what can be told of the names of a table by their
spellings is told alike of any later table.
-/
namespace FlowTyping

def NameRef.text : NameRef → String
  | .spelled text => text
  | .numbered _ => ""

/-- The spellings that a reference enters: a number enters none. -/
def NameRef.spellings : NameRef → List String
  | .spelled text => [text]
  | .numbered _ => []

def NameRef.IsSpelled (ref : NameRef) : Prop := ref = .spelled ref.text

namespace NameTable

structure Grown (names later : NameTable) : Prop where
  sound : later.Sound
  kept : ∀ {name text}, names.spelling? name = some text → later.spelling? name = some text

variable {names later : NameTable} {text : String}

theorem Grown.refl (hnames : names.Sound) : names.Grown names := ⟨hnames, id⟩

theorem Grown.trans {last : NameTable} (hlater : names.Grown later) (hlast : later.Grown last) :
    names.Grown last :=
  ⟨hlast.sound, fun htext => hlast.kept (hlater.kept htext)⟩

theorem spelling?_intern_of_some {table : NameTable} {name : Name} {text : String}
    (htext : table.spelling? name = some text) (spelling : String) :
    (table.intern spelling).2.spelling? name = some text := by
  have hlt : name.raw < table.size := (Array.getElem?_eq_some_iff.mp htext).1
  rw [spelling?_intern_of_lt table spelling hlt, htext]

theorem Sound.grown_intern (hnames : names.Sound) (text : String) :
    names.Grown (names.intern text).2 :=
  ⟨hnames.intern text, fun htext => spelling?_intern_of_some htext text⟩

theorem name_snd (table : NameTable) (ref : NameRef) :
    (table.name ref).2 = table.entering ref.spellings := by
  cases ref <;> rfl

theorem names_snd (table : NameTable) (refs : List NameRef) :
    (table.names refs).2 = table.entering (refs.flatMap NameRef.spellings) := by
  induction refs generalizing table with
  | nil => rfl
  | cons ref refs ih =>
    rw [List.flatMap_cons, entering_append, ← name_snd]
    exact ih (table.name ref).2

theorem Sound.grown_name (hnames : names.Sound) (ref : NameRef) :
    names.Grown (names.name ref).2 := by
  cases ref with
  | spelled text => exact hnames.grown_intern text
  | numbered raw => exact .refl hnames

theorem Sound.spelling?_name (hnames : names.Sound) {ref : NameRef} (href : ref.IsSpelled) :
    (names.name ref).2.spelling? (names.name ref).1 = some ref.text := by
  cases ref with
  | spelled text =>
    rw [name, ← hnames.intern text, find?_intern]
    exact if_pos rfl
  | numbered raw => cases href

theorem Sound.grown_names (hnames : names.Sound) (refs : List NameRef) :
    names.Grown (names.names refs).2 := by
  induction refs generalizing names with
  | nil => exact .refl hnames
  | cons ref refs ih =>
    have hfirst := hnames.grown_name ref
    exact hfirst.trans (ih hfirst.sound)

theorem Sound.spelling?_names (hnames : names.Sound) {refs : List NameRef}
    (hrefs : ∀ ref ∈ refs, ref.IsSpelled) :
    (names.names refs).1.map (names.names refs).2.spelling? =
      refs.map fun ref => some ref.text := by
  induction refs generalizing names with
  | nil => rfl
  | cons ref refs ih =>
    obtain ⟨href, hrefs⟩ := List.forall_mem_cons.mp hrefs
    have hfirst := hnames.grown_name ref
    have hkept := (hfirst.sound.grown_names refs).kept (hnames.spelling?_name href)
    rw [List.map_cons, ← hkept, ← ih hfirst.sound hrefs]
    rfl

/-- What was interned since is the name of nothing before. -/
theorem Grown.find?_cases (hgrown : names.Grown later) (hnames : names.Sound) (text : String) :
    later.find? text = names.find? text ∨
      (names.find? text = none ∧ ∀ name ∈ later.find? text, names.spelling? name = none) := by
  cases hfind : names.find? text with
  | some name =>
    exact .inl ((hgrown.sound text name).mpr (hgrown.kept ((hnames text name).mp hfind)))
  | none =>
    refine .inr ⟨rfl, fun name hname => ?_⟩
    cases hspelled : names.spelling? name with
    | none => rfl
    | some other =>
      -- The name would have had its spelling all along.
      have hsame := (hgrown.sound text name).mp hname
      rw [hgrown.kept hspelled, Option.some.injEq] at hsame
      rw [← hnames, hsame, hfind] at hspelled
      cases hspelled

/-- What is told of names that have a spelling is told alike of the spellings at any later time. -/
theorem Grown.bind_find? {α : Type} (hgrown : names.Grown later) (hnames : names.Sound)
    {look : Name → Option α} (hlook : ∀ name, names.spelling? name = none → look name = none)
    (text : String) : (later.find? text).bind look = (names.find? text).bind look := by
  rcases hgrown.find?_cases hnames text with hsame | ⟨hnone, hnew⟩
  · rw [hsame]
  · rw [hnone, Option.bind_none, Option.bind_eq_none_iff]
    exact fun name hname => hlook name (hnew name hname)

end NameTable

end FlowTyping
