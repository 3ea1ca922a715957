import Mathlib.Data.List.Forall2

/-! Runs of steps that change a state and may stop. -/
namespace TemplateCompiler

variable {ε σ α β γ δ : Type}

theorem step_bind (m : EStateM ε σ α) (f : α → EStateM ε σ β) (s : σ) :
    (m >>= f) s = match m s with
      | .ok a t => f a t
      | .error e t => .error e t := rfl

theorem step_get (s : σ) : (get : EStateM ε σ σ) s = .ok s s := rfl

theorem step_modify (f : σ → σ) (s : σ) : (modify f : EStateM ε σ Unit) s = .ok () (f s) := rfl

theorem step_bind_ok {m : EStateM ε σ α} {f : α → EStateM ε σ β} {s t : σ} {b : β} :
    (m >>= f) s = .ok b t ↔ ∃ a u, m s = .ok a u ∧ f a u = .ok b t := by
  rw [step_bind]
  cases m s with
  | ok a u =>
    refine ⟨fun h => ⟨a, u, rfl, h⟩, ?_⟩
    rintro ⟨a', u', h, h'⟩
    cases h
    exact h'
  | error e u => simp

theorem except_bind_ok {x : Except ε α} {f : α → Except ε β} {b : β} :
    x >>= f = .ok b ↔ ∃ a, x = .ok a ∧ f a = .ok b := by
  cases x with
  | error e =>
    constructor
    · intro h
      cases h
    · rintro ⟨a, h, -⟩
      cases h
  | ok a =>
    refine ⟨fun h => ⟨a, rfl, h⟩, ?_⟩
    rintro ⟨a', h, h'⟩
    cases h
    exact h'

theorem except_map_ok {x : Except ε α} {f : α → β} {b : β} :
    f <$> x = .ok b ↔ ∃ a, x = .ok a ∧ b = f a := by
  rw [← bind_pure_comp, except_bind_ok]
  refine exists_congr fun a => and_congr_right fun _ => ?_
  exact ⟨fun h => by cases h; rfl, fun h => by cases h; rfl⟩

theorem except_bind_error {x : Except ε α} {f : α → Except ε β} {e : ε} :
    x >>= f = .error e ↔ x = .error e ∨ ∃ a, x = .ok a ∧ f a = .error e := by
  cases x with
  | error e' =>
    refine ⟨fun h => .inl (by cases h; rfl), ?_⟩
    rintro (h | ⟨a, h, -⟩)
    · cases h
      rfl
    · cases h
  | ok a =>
    refine ⟨fun h => .inr ⟨a, rfl, h⟩, ?_⟩
    rintro (h | ⟨a', h, h'⟩)
    · cases h
    · cases h
      exact h'

theorem except_map_error {x : Except ε α} {f : α → β} {e : ε} :
    f <$> x = .error e ↔ x = .error e := by
  rw [← bind_pure_comp, except_bind_error, or_iff_left]
  rintro ⟨a, -, h⟩
  cases h

theorem forall₂_exists_left {R : α → β → Prop} {as : List α} {bs : List β}
    (h : List.Forall₂ R as bs) {a : α} (ha : a ∈ as) : ∃ b ∈ bs, R a b := by
  induction h with
  | nil => cases ha
  | @cons a' b as bs hab _ ih =>
    rcases List.mem_cons.mp ha with rfl | ha
    · exact ⟨b, List.mem_cons_self, hab⟩
    · obtain ⟨b', hb', h⟩ := ih ha
      exact ⟨b', List.mem_cons_of_mem _ hb', h⟩

theorem forall₂_exists_right {R : α → β → Prop} {as : List α} {bs : List β}
    (h : List.Forall₂ R as bs) {b : β} (hb : b ∈ bs) : ∃ a ∈ as, R a b :=
  forall₂_exists_left h.flip hb

theorem forall₂_flatMap {f : α → List γ} {g : β → List γ} {as : List α} {bs : List β}
    (h : List.Forall₂ (fun a b => g b = f a) as bs) : bs.flatMap g = as.flatMap f := by
  induction h with
  | nil => rfl
  | cons hab _ ih => rw [List.flatMap_cons, List.flatMap_cons, hab, ih]

theorem mapM_forall₂ {f : α → Option β} {as : List α} {bs : List β} (h : as.mapM f = some bs) :
    List.Forall₂ (f · = some ·) as bs := by
  induction as generalizing bs with
  | nil =>
    cases h
    exact .nil
  | cons a as ih =>
    rw [List.mapM_cons] at h
    obtain ⟨b, hb, h⟩ := Option.bind_eq_some_iff.mp h
    obtain ⟨bs', hbs, h⟩ := Option.bind_eq_some_iff.mp h
    cases h
    exact .cons hb (ih hbs)

theorem mapM_isSome {f : α → Option β} {as : List α} (h : ∀ a ∈ as, ∃ b, f a = some b) :
    ∃ bs, as.mapM f = some bs := by
  induction as with
  | nil => exact ⟨[], rfl⟩
  | cons a as ih =>
    obtain ⟨⟨b, hb⟩, has⟩ := List.forall_mem_cons.mp h
    obtain ⟨bs, hbs⟩ := ih has
    exact ⟨b :: bs, by rw [List.mapM_cons, hb, hbs]; rfl⟩

theorem listMapM_forall₂ {f : α → Except ε β} {as : List α} {bs : List β}
    (h : as.mapM f = .ok bs) : List.Forall₂ (f · = .ok ·) as bs := by
  induction as generalizing bs with
  | nil =>
    cases h
    exact .nil
  | cons a as ih =>
    rw [List.mapM_cons] at h
    obtain ⟨b, hb, h⟩ := except_bind_ok.mp h
    obtain ⟨bs', hbs, h⟩ := except_bind_ok.mp h
    cases h
    exact .cons hb (ih hbs)

theorem listMapM_ok {f : α → Except ε β} {as : List α} {bs : List β} (h : as.mapM f = .ok bs)
    {b : β} (hb : b ∈ bs) : ∃ a ∈ as, f a = .ok b :=
  forall₂_exists_right (listMapM_forall₂ h) hb

/-- A run over a list is a run over its parts. -/
theorem listMapM_split {f : α → Except ε β} {before after : List α} {a : α} {bs : List β}
    (h : (before ++ a :: after).mapM f = .ok bs) : ∃ before' b after',
      before.mapM f = .ok before' ∧ f a = .ok b ∧ after.mapM f = .ok after' ∧
        bs = before' ++ b :: after' := by
  rw [List.mapM_append] at h
  obtain ⟨before', hbefore, h⟩ := except_bind_ok.mp h
  obtain ⟨bs', hbs', h⟩ := except_bind_ok.mp h
  cases h
  rw [List.mapM_cons] at hbs'
  obtain ⟨b, hb, h⟩ := except_bind_ok.mp hbs'
  obtain ⟨after', hafter, h⟩ := except_bind_ok.mp h
  cases h
  exact ⟨before', b, after', hbefore, hb, hafter, rfl⟩

/-- A run over a list fails with the failure of one of the items. -/
theorem listMapM_error {f : α → Except ε β} {as : List α} {e : ε} (h : as.mapM f = .error e) :
    ∃ a ∈ as, f a = .error e := by
  induction as with
  | nil => cases h
  | cons a as ih =>
    rw [List.mapM_cons] at h
    rcases except_bind_error.mp h with h | ⟨b, -, h⟩
    · exact ⟨a, List.mem_cons_self, h⟩
    · rcases except_bind_error.mp h with h | ⟨bs, -, h⟩
      · obtain ⟨a', ha', h⟩ := ih h
        exact ⟨a', List.mem_cons_of_mem _ ha', h⟩
      · cases h

theorem listMapM_flatMap {f : γ → Except ε δ} {xs : α → List γ} {ys : β → List δ} {as : List α}
    {bs : List β} (h : List.Forall₂ (fun a b => (xs a).mapM f = .ok (ys b)) as bs) :
    (as.flatMap xs).mapM f = .ok (bs.flatMap ys) := by
  induction h with
  | nil => rfl
  | cons hab _ ih =>
    rw [List.flatMap_cons, List.mapM_append, hab, ih]
    rfl

/-- A test that `f` does not change finds what `f` makes of what it found before. -/
theorem listMapM_find? {f : α → Except ε β} {p : α → Bool} {q : β → Bool}
    (hpq : ∀ a b, f a = .ok b → q b = p a) {as : List α} {bs : List β} (h : as.mapM f = .ok bs) :
    as.find? p = none ∧ bs.find? q = none ∨
      ∃ a b, as.find? p = some a ∧ f a = .ok b ∧ bs.find? q = some b := by
  replace h := listMapM_forall₂ h
  induction h with
  | nil => exact .inl ⟨rfl, rfl⟩
  | @cons a b as bs hab _ ih =>
    rw [List.find?_cons, List.find?_cons, hpq a b hab]
    cases p a with
    | true => exact .inr ⟨a, b, rfl, hab, rfl⟩
    | false => exact ih

theorem listMapM_all {f : α → Except ε β} {p : α → Bool} {q : β → Bool}
    (hpq : ∀ a b, f a = .ok b → q b = p a) {as : List α} {bs : List β} (h : as.mapM f = .ok bs) :
    bs.all q = as.all p := by
  replace h := listMapM_forall₂ h
  induction h with
  | nil => rfl
  | @cons a b as bs hab _ ih => rw [List.all_cons, List.all_cons, hpq a b hab, ih]

/-- What every step of a fold keeps holds at its end. -/
theorem foldlM_ok {f : β → α → Except ε β} {q : β → Prop} {as : List α}
    (hf : ∀ a ∈ as, ∀ b b', q b → f b a = .ok b' → q b') {b b' : β} (hb : q b)
    (h : as.foldlM f b = .ok b') : q b' := by
  induction as generalizing b with
  | nil =>
    cases h
    exact hb
  | cons a as ih =>
    rw [List.foldlM_cons] at h
    obtain ⟨b₁, hb₁, h⟩ := except_bind_ok.mp h
    have hf' := fun a' ha' => hf a' (List.mem_cons_of_mem _ ha')
    exact ih hf' (hf a List.mem_cons_self b b₁ hb hb₁) h

theorem foldlM_step {f : β → α → Except ε β} {as : List α} {b b' : β} (h : as.foldlM f b = .ok b')
    {a : α} (ha : a ∈ as) : ∃ b₁ b₂, f b₁ a = .ok b₂ := by
  obtain ⟨before, after, rfl⟩ := List.append_of_mem ha
  rw [List.foldlM_append] at h
  obtain ⟨b₁, -, h⟩ := except_bind_ok.mp h
  rw [List.foldlM_cons] at h
  obtain ⟨b₂, hb₂, -⟩ := except_bind_ok.mp h
  exact ⟨b₁, b₂, hb₂⟩

theorem foldlM_error {f : β → α → Except ε β} {as : List α} {b : β} {e : ε}
    (h : as.foldlM f b = .error e) : ∃ a ∈ as, ∃ b', f b' a = .error e := by
  induction as generalizing b with
  | nil => cases h
  | cons a as ih =>
    rw [List.foldlM_cons] at h
    rcases except_bind_error.mp h with h | ⟨b', -, h⟩
    · exact ⟨a, List.mem_cons_self, b, h⟩
    · obtain ⟨a', ha', h⟩ := ih h
      exact ⟨a', List.mem_cons_of_mem _ ha', h⟩

theorem optionMapM_error {f : α → Except ε β} {x : Option α} {e : ε} (h : x.mapM f = .error e) :
    ∃ a ∈ x, f a = .error e := by
  cases x with
  | none => cases h
  | some a => exact ⟨a, rfl, except_map_error.mp h⟩

theorem optionMapM_ok {f : α → Except ε β} {x : Option α} {y : Option β}
    (h : x.mapM f = .ok y) {b : β} (hb : b ∈ y) : ∃ a ∈ x, f a = .ok b := by
  cases x with
  | none =>
    cases h
    cases hb
  | some a =>
    obtain ⟨b', hf, rfl⟩ := except_map_ok.mp h
    cases hb
    exact ⟨a, rfl, hf⟩

theorem isSome_optionMapM {f : α → Except ε β} {x : Option α} {y : Option β}
    (h : x.mapM f = .ok y) : y.isSome = x.isSome := by
  cases x with
  | none =>
    cases h
    rfl
  | some a =>
    obtain ⟨b, -, rfl⟩ := except_map_ok.mp h
    rfl

/-- What a run that stopped stopped with. -/
def errorOf? : Except ε α → Option ε
  | .error e => some e
  | .ok _ => none

theorem except_error_of_errorOf? {x : Except ε α} {e : ε} (h : errorOf? x = some e) :
    x = .error e := by
  cases x with
  | error e' =>
    cases h
    rfl
  | ok a => cases h

theorem except_ok_of_isOk {x : Except ε α} (h : x.isOk = true) : ∃ a, x = .ok a := by
  cases x with
  | error e => cases h
  | ok a => exact ⟨a, rfl⟩

end TemplateCompiler
