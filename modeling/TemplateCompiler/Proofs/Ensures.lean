import TemplateCompiler.Proofs.Answers

/-! Postconditions of lowering steps. The set of all helpers that are registered in the end is
fixed from the start, so that a postcondition may say of a helper that it is in there as soon as
a step registers it. -/
namespace TemplateCompiler.LowerM

variable {α β : Type} {o : LoweringOptions} {s : Scope} {hs : HelperSet}

/-- If the step answers, and what it registers is in the set, the answer has the property. -/
def Ensures (o : LoweringOptions) (s : Scope) (hs : HelperSet) (m : LowerM α) (q : α → Prop) :
    Prop :=
  ∃ x ns, (∀ c : Context, c.options = o → c.scope = s → m c = answer x (c.noteAll ns)) ∧
    ∀ a, x = .ok a → (∀ n ∈ ns, hs.contains n.toHelper = true) → q a

/-- A step that gives an answer ensures that it is this one. -/
theorem Gives.ensures {m : LowerM α} {x : Except Fault α} {components : List String}
    (h : Gives o s m x components) : Ensures o s hs m fun a => x = .ok a := by
  obtain ⟨ns, hx, -⟩ := h
  exact ⟨x, ns, hx, fun _ ha _ => ha⟩

theorem Ensures.imp {m : LowerM α} {p q : α → Prop} (h : Ensures o s hs m p)
    (hpq : ∀ a, p a → q a) : Ensures o s hs m q := by
  obtain ⟨x, ns, hx, hp⟩ := h
  exact ⟨x, ns, hx, fun a ha hn => hpq a (hp a ha hn)⟩

theorem ensures_pure {a : α} {q : α → Prop} (h : q a) : Ensures o s hs (pure a) q :=
  (gives_pure a).ensures.imp fun b hb => by
    cases hb
    exact h

theorem ensures_throw {q : α → Prop} (f : Fault) : Ensures o s hs (throw f) q :=
  ⟨.error f, [], fun _ _ _ => rfl, fun _ hb => by cases hb⟩

theorem ensures_refuse {q : α → Prop} (d : Diagnostic) : Ensures o s hs (refuse d) q :=
  ensures_throw _

private theorem ensures_helper (h : Helper) :
    Ensures o s hs (helper h) fun _ => hs.contains h = true :=
  ⟨.ok (), [.helper h], fun _ _ _ => rfl, fun _ _ hn => hn _ List.mem_cons_self⟩

theorem ensures_get {f : Context → LowerM α} {m : LowerM α} {q : α → Prop}
    (hf : ∀ c, c.options = o → c.scope = s → f c = m) (hm : Ensures o s hs m q) :
    Ensures o s hs (do f (← get)) q := by
  obtain ⟨x, ns, hx, hq⟩ := hm
  refine ⟨x, ns, fun c ho hs => ?_, hq⟩
  rw [← hx c ho hs, ← hf c ho hs]
  rfl

/-- What the first step ensures may be assumed of the second one's answer. -/
theorem Ensures.bind {m : LowerM α} {f : α → LowerM β} {p : α → Prop} {q : β → Prop}
    (hm : Ensures o s hs m p) (hf : ∀ a, Ensures o s hs (f a) fun b => p a → q b) :
    Ensures o s hs (m >>= f) q := by
  obtain ⟨x, ns, hx, hp⟩ := hm
  cases x with
  | error e =>
    refine ⟨.error e, ns, fun c ho hs => ?_, fun _ ha => by cases ha⟩
    rw [step_bind, hx c ho hs]
    rfl
  | ok a =>
    obtain ⟨y, ms, hy, hq⟩ := hf a
    refine ⟨y, ns ++ ms, fun c ho hs => ?_, fun b hb hn => ?_⟩
    · rw [step_bind, hx c ho hs, Context.noteAll_append]
      exact hy _ ho hs
    · have hp' := hp a rfl fun n hm => hn n (List.mem_append_left _ hm)
      exact hq b hb (fun n hm => hn n (List.mem_append_right _ hm)) hp'

/-- A condition that does not depend on the step may be assumed. -/
theorem Registers.ensures_of {m : LowerM α} (hm : Registers m) {p : Prop} {q : α → Prop}
    (h : p → Ensures o s hs m q) : Ensures o s hs m fun a => p → q a := by
  by_cases hp : p
  · exact (h hp).imp fun _ ha _ => ha
  · obtain ⟨x, _, hx⟩ := hm o s
    exact hx.ensures.imp fun _ _ hp' => absurd hp' hp

theorem Ensures.after_helper {m : LowerM α} {q : α → Prop} {h : Helper}
    (hm : Ensures o s hs m fun a => hs.contains h = true → q a) :
    Ensures o s hs (do helper h; m) q :=
  (ensures_helper h).bind fun _ => hm

theorem Ensures.map {m : LowerM α} {f : α → β} {q : β → Prop}
    (hm : Ensures o s hs m fun a => q (f a)) : Ensures o s hs (f <$> m) q := by
  rw [← bind_pure_comp]
  exact hm.bind fun _ => ensures_pure id

/-- Running a step over a list ensures its condition at each of the items. -/
theorem ensures_mapM {f : α → LowerM β} {q : α → β → Prop} {as : List α}
    (hf : ∀ a ∈ as, Ensures o s hs (f a) (q a)) :
    Ensures o s hs (as.mapM f) (List.Forall₂ q as) := by
  induction as with
  | nil => exact ensures_pure .nil
  | cons a as ih =>
    obtain ⟨ha, has⟩ := List.forall_mem_cons.mp hf
    rw [List.mapM_cons]
    refine ha.bind fun b => (ih has).bind fun bs => ?_
    exact ensures_pure fun hbs hb => .cons hb hbs

/-- After a run of the step the property holds with the helpers that are registered then. -/
theorem Ensures.of_ok {m : LowerM α} {q : HelperSet → α → Prop}
    (hm : ∀ hs, Ensures o s hs m (q hs)) {c d : Context} {a : α} (ho : c.options = o)
    (hs : c.scope = s) (h : m c = .ok a d) : q d.helpers a := by
  obtain ⟨x, ns, hx, hq⟩ := hm d.helpers
  rw [hx c ho hs] at h
  cases x with
  | error f => cases h
  | ok b =>
    cases h
    exact hq a rfl fun n hn => c.contains_noteAll hn

/-- A condition that does not speak of helpers holds of the answer itself. -/
theorem Ensures.of_gives {m : LowerM α} {q : α → Prop} (hm : ∀ hs, Ensures o s hs m q) {a : α}
    {components : List String} (h : Gives o s m (.ok a) components) : q a := by
  obtain ⟨ns, hx, -⟩ := h
  exact Ensures.of_ok (q := fun _ => q) hm rfl rfl (hx { options := o, scope := s } rfl rfl)

/-- A step that has registered a component has registered the look-up of components. -/
theorem Registers.resolves_components {m : LowerM α} (hm : Registers m) {c d : Context} {a : α}
    (hc : c.components = []) (h : m c = .ok a d) (hd : d.components ≠ []) :
    d.helpers.contains .resolveComponent = true := by
  obtain ⟨x, _, ns, hx, -⟩ := hm c.options c.scope
  rw [hx c rfl rfl] at h
  cases x with
  | error f => cases h
  | ok b =>
    cases h
    obtain ⟨name, hname⟩ := List.exists_mem_of_ne_nil _ hd
    rcases Context.component_of_noteAll hname with h | h
    · rw [hc] at h
      cases h
    · exact c.contains_noteAll h

end TemplateCompiler.LowerM
