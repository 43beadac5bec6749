import Mathlib.Data.List.Forall2

/-! # Answers and errors in sequence -/
namespace FlowTyping.Except
variable {ε α β : Type}

@[simp] theorem ok_bind (value : α) (next : α → Except ε β) :
    (Except.ok value >>= next) = next value := rfl

@[simp] theorem error_bind (error : ε) (next : α → Except ε β) :
    (Except.error error >>= next) = .error error := rfl

@[simp] theorem throw_eq_error (error : ε) : (throw error : Except ε α) = .error error := rfl

@[simp] theorem pure_eq_ok (value : α) : (pure value : Except ε α) = .ok value := rfl

theorem bind_eq_ok_iff {first : Except ε α} {next : α → Except ε β} {result : β} :
    (first >>= next) = .ok result ↔ ∃ value, first = .ok value ∧ next value = .ok result := by
  cases first <;> simp

theorem map_eq_ok_iff {f : α → β} {first : Except ε α} {result : β} :
    f <$> first = .ok result ↔ ∃ value, first = .ok value ∧ f value = result := by
  cases first <;> simp

theorem mapError_eq_ok_iff {ε₁ : Type} {tell : ε → ε₁} {first : Except ε α} {value : α} :
    first.mapError tell = .ok value ↔ first = .ok value := by
  cases first <;> simp [Except.mapError]

/-- A list of answers has one answer for each question. -/
theorem mapM_eq_ok_iff {f : α → Except ε β} {as : List α} {bs : List β} :
    as.mapM f = .ok bs ↔ List.Forall₂ (fun a b => f a = .ok b) as bs := by
  induction as generalizing bs with
  | nil =>
    rw [List.mapM_nil, List.forall₂_nil_left_iff]
    exact ⟨fun h => (Except.ok.inj h).symm, fun h => h ▸ rfl⟩
  | cons a as ih =>
    rw [List.mapM_cons, List.forall₂_cons_left_iff]
    constructor
    · intro h
      obtain ⟨b, hb, h⟩ := bind_eq_ok_iff.mp h
      obtain ⟨bs', hbs, h⟩ := bind_eq_ok_iff.mp h
      exact ⟨b, bs', hb, ih.mp hbs, (Except.ok.inj h).symm⟩
    · rintro ⟨b, bs', hb, hbs, rfl⟩
      rw [hb, ih.mpr hbs]
      rfl

theorem exists_mapM {f : α → Except ε β} {as : List α} (hall : ∀ a ∈ as, ∃ b, f a = .ok b) :
    ∃ bs, as.mapM f = .ok bs := by
  induction as with
  | nil => exact ⟨[], rfl⟩
  | cons a as ih =>
    obtain ⟨⟨b, hb⟩, hrest⟩ := List.forall_mem_cons.mp hall
    obtain ⟨bs, hbs⟩ := ih hrest
    exact ⟨b :: bs, mapM_eq_ok_iff.mpr (.cons hb (mapM_eq_ok_iff.mp hbs))⟩

theorem mem_of_mapM {f : α → Except ε β} {as : List α} {bs : List β} (hmap : as.mapM f = .ok bs)
    (b : β) : b ∈ bs ↔ ∃ a ∈ as, f a = .ok b := by
  rw [mapM_eq_ok_iff] at hmap
  induction hmap with
  | nil => simp
  | @cons a b' as bs hfirst _ ih =>
    rw [List.mem_cons, ih]
    constructor
    · rintro (rfl | ⟨a', ha', hfa⟩)
      · exact ⟨a, List.mem_cons_self, hfirst⟩
      · exact ⟨a', List.mem_cons_of_mem a ha', hfa⟩
    · rintro ⟨a', ha', hfa⟩
      rcases List.mem_cons.mp ha' with rfl | ha'
      · exact .inl (Except.ok.inj (hfa.symm.trans hfirst))
      · exact .inr ⟨a', ha', hfa⟩

theorem mapM_filter {f : α → Except ε β} {as : List α} {bs : List β} {asks : α → Bool}
    {passes : β → Bool} (hmap : as.mapM f = .ok bs)
    (htest : ∀ a b, f a = .ok b → asks a = passes b) :
    (as.filter asks).mapM f = .ok (bs.filter passes) := by
  rw [mapM_eq_ok_iff] at hmap ⊢
  induction hmap with
  | nil => exact .nil
  | cons hfirst _ ih =>
    rw [List.filter_cons, List.filter_cons, htest _ _ hfirst]
    split
    · exact .cons hfirst ih
    · exact ih

/-- Whatever the one answers, the other answers too. -/
def Le (first later : Except ε α) : Prop := ∀ value, first = .ok value → later = .ok value

theorem Le.refl (first : Except ε α) : Le first first := fun _ h => h

theorem Le.bind {first later : Except ε α} {next next' : α → Except ε β} (hle : Le first later)
    (hnext : ∀ value, Le (next value) (next' value)) : Le (first >>= next) (later >>= next') := by
  intro result hresult
  obtain ⟨value, hvalue, hresult⟩ := bind_eq_ok_iff.mp hresult
  rw [hle value hvalue]
  exact hnext value result hresult

theorem Le.mapError {ε₁ : Type} {first later : Except ε α} (tell : ε → ε₁) (hle : Le first later) :
    Le (first.mapError tell) (later.mapError tell) := by
  intro value hvalue
  cases first with
  | error error => cases hvalue
  | ok first =>
    rw [hle first rfl]
    exact hvalue

/-- A test that has an answer for every member is made of them all. -/
theorem allM_eq_all {test : α → Except ε Bool} (passes : α → Bool) {as : List α}
    (hall : ∀ a ∈ as, test a = .ok (passes a)) : as.allM test = .ok (as.all passes) := by
  induction as with
  | nil => rfl
  | cons a as ih =>
    obtain ⟨hfirst, hrest⟩ := List.forall_mem_cons.mp hall
    rw [List.allM, hfirst, List.all_cons]
    cases passes a with
    | false => rfl
    | true => exact ih hrest

/-- A test passes for all members if it does for each of them. -/
theorem allM_eq_ok_true_iff {test : α → Except ε Bool} {as : List α} :
    as.allM test = .ok true ↔ ∀ a ∈ as, test a = .ok true := by
  induction as with
  | nil => exact iff_of_true rfl fun a ha => absurd ha List.not_mem_nil
  | cons a as ih =>
    rw [List.forall_mem_cons, ← ih, List.allM]
    cases htest : test a with
    | error error => simp
    | ok passes => cases passes <;> simp

/-! ## Errors -/

def Raises (kind : ε → Prop) (answer : Except ε α) : Prop :=
  ∀ error, answer = .error error → kind error

variable {kind : ε → Prop}

theorem raises_ok (value : α) : Raises kind (.ok value) := fun _ herror => by cases herror

theorem raises_error {error : ε} (herror : kind error) :
    Raises kind (.error error : Except ε α) := by
  intro error' hsame
  cases hsame
  exact herror

theorem Raises.mono {kind' : ε → Prop} {answer : Except ε α} (hraises : Raises kind answer)
    (hkind : ∀ error, kind error → kind' error) : Raises kind' answer :=
  fun error herror => hkind error (hraises error herror)

theorem Raises.bind {first : Except ε α} {next : α → Except ε β} (hfirst : Raises kind first)
    (hnext : ∀ value, first = .ok value → Raises kind (next value)) :
    Raises kind (first >>= next) := by
  cases first with
  | error error => exact raises_error (hfirst error rfl)
  | ok value => exact hnext value rfl

theorem Raises.mapError {ε₁ : Type} {kind' : ε₁ → Prop} {answer : Except ε α} {tell : ε → ε₁}
    (hraises : Raises kind answer) (hkind : ∀ error, kind error → kind' (tell error)) :
    Raises kind' (answer.mapError tell) := by
  cases answer with
  | error error => exact raises_error (hkind error (hraises error rfl))
  | ok value => exact raises_ok value

theorem raises_mapM {f : α → Except ε β} (hf : ∀ a, Raises kind (f a)) (as : List α) :
    Raises kind (as.mapM f) := by
  induction as with
  | nil => exact raises_ok _
  | cons a as ih =>
    rw [List.mapM_cons]
    exact (hf a).bind fun b _ => ih.bind fun bs _ => raises_ok _

theorem raises_foldlM {f : β → α → Except ε β} (hf : ∀ b a, Raises kind (f b a)) (as : List α)
    (b : β) : Raises kind (as.foldlM f b) := by
  induction as generalizing b with
  | nil => exact raises_ok b
  | cons a as ih =>
    rw [List.foldlM_cons]
    exact (hf b a).bind fun b _ => ih b

end FlowTyping.Except
