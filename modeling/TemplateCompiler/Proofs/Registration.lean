import TemplateCompiler.Lowering.Root
import TemplateCompiler.Proofs.Stateful

/-! Steps of a lowering seen from outside: they read the options and the names in scope, and what
they leave behind is an answer and some registrations. -/
namespace TemplateCompiler

/-- One registration. A component is registered together with the helper that looks it up. -/
inductive Note where
  | helper (h : Helper)
  | component (name : String)
  deriving DecidableEq, Repr

namespace Note

def toHelper : Note → Helper
  | helper h => h
  | component _ => .resolveComponent

/-- The component that is registered, if it is one. -/
def component? : Note → Option String
  | helper _ => none
  | component name => some name

def addComponent (cs : List String) : Note → List String
  | helper _ => cs
  | component name => if cs.contains name then cs else cs ++ [name]

end Note

/-- The state after a list of registrations. -/
def Context.noteAll (c : Context) (notes : List Note) : Context :=
  { c with
    helpers := (notes.map Note.toHelper).foldl HelperSet.insert c.helpers
    components := notes.foldl Note.addComponent c.components }

theorem Context.noteAll_append (c : Context) (ns ms : List Note) :
    c.noteAll (ns ++ ms) = (c.noteAll ns).noteAll ms := by
  simp [noteAll, List.foldl_append]

theorem HelperSet.contains_foldl_insert (hs : HelperSet) (xs : List Helper) (h : Helper) :
    (xs.foldl insert hs).contains h = true ↔ h ∈ xs ∨ hs.contains h = true := by
  induction xs generalizing hs with
  | nil => simp
  | cons x xs ih => simp [ih, or_assoc, or_left_comm]

/-- What is noted is among the helpers. -/
theorem Context.contains_noteAll (c : Context) {ns : List Note} {n : Note} (h : n ∈ ns) :
    (c.noteAll ns).helpers.contains n.toHelper = true :=
  (HelperSet.contains_foldl_insert _ _ _).mpr (.inl (List.mem_map_of_mem h))

/-- A component that has been registered was noted. -/
theorem Context.component_of_noteAll {c : Context} {ns : List Note} {name : String}
    (h : name ∈ (c.noteAll ns).components) : name ∈ c.components ∨ .component name ∈ ns := by
  simp only [noteAll] at h
  generalize c.components = cs at h ⊢
  induction ns generalizing cs with
  | nil => exact .inl h
  | cons n ns ih =>
    rcases ih (n.addComponent cs) h with h | h
    · cases n with
      | helper x => exact .inl h
      | component x =>
        simp only [Note.addComponent] at h
        split at h
        · exact .inl h
        · rcases List.mem_append.mp h with h | h
          · exact .inl h
          · rw [List.mem_singleton.mp h]
            exact .inr List.mem_cons_self
    · exact .inr (List.mem_cons_of_mem _ h)

/-- The state with another cursor. -/
abbrev Context.at (c : Context) (k : Cursor) : Context := { c with cursor := k }

/-- The result of a step with the given answer and final state. -/
def answer {α : Type} (x : Except Fault α) (c : Context) : EStateM.Result Fault Context α :=
  match x with
  | .ok a => .ok a c
  | .error f => .error f c

namespace LowerM
variable {α β : Type}

/-- With these options and in this scope, the step gives the answer and changes nothing but the
registrations, to which it adds the same ones whatever they were. If it succeeds, the components
among these are the given ones. -/
def Gives (o : LoweringOptions) (s : Scope) (m : LowerM α) (x : Except Fault α)
    (components : List String) : Prop :=
  ∃ ns, (∀ c : Context, c.options = o → c.scope = s → m c = answer x (c.noteAll ns)) ∧
    ∀ a, x = .ok a → ns.filterMap Note.component? = components

/-- The step gives some answer with any options and in any scope. -/
def Registers (m : LowerM α) : Prop := ∀ o s, ∃ x components, Gives o s m x components

section
variable {o : LoweringOptions} {s : Scope} {components others : List String}

theorem gives_pure (a : α) : Gives o s (pure a) (.ok a) [] :=
  ⟨[], fun _ _ _ => rfl, fun _ _ => rfl⟩

theorem gives_throw (f : Fault) : Gives o s (throw f : LowerM α) (.error f) components :=
  ⟨[], fun _ _ _ => rfl, fun _ h => by cases h⟩

theorem gives_refuse (d : Diagnostic) :
    Gives o s (refuse d : LowerM α) (.error (.refused d)) components :=
  gives_throw _

/-- Two steps, one after the other, register the components of both. -/
theorem Gives.bind {m : LowerM α} {f : α → LowerM β} {x : Except Fault α}
    {g : α → Except Fault β} (hm : Gives o s m x components)
    (hf : ∀ a, Gives o s (f a) (g a) others) :
    Gives o s (m >>= f) (x >>= g) (components ++ others) := by
  obtain ⟨ns, hx, hns⟩ := hm
  cases x with
  | error e =>
    refine ⟨ns, fun c ho hs => ?_, fun _ h => by cases h⟩
    rw [step_bind, hx c ho hs]
    rfl
  | ok a =>
    obtain ⟨ms, hy, hms⟩ := hf a
    refine ⟨ns ++ ms, fun c ho hs => ?_, fun b hb => ?_⟩
    · rw [step_bind, hx c ho hs, Context.noteAll_append]
      exact hy _ ho hs
    · rw [List.filterMap_append, hns a rfl, hms b hb]

/-- What follows a step registers no component. -/
theorem Gives.andThen {m : LowerM α} {f : α → LowerM β} {x : Except Fault α}
    {g : α → Except Fault β} (hm : Gives o s m x components)
    (hf : ∀ a, Gives o s (f a) (g a) []) : Gives o s (m >>= f) (x >>= g) components := by
  have h := hm.bind hf
  rwa [List.append_nil] at h

theorem Gives.map {m : LowerM α} {x : Except Fault α} (hm : Gives o s m x components)
    (f : α → β) : Gives o s (f <$> m) (f <$> x) components := by
  rw [← bind_pure_comp, ← bind_pure_comp]
  exact hm.andThen fun _ => gives_pure _

private theorem gives_helper (h : Helper) : Gives o s (helper h) (.ok ()) [] :=
  ⟨[.helper h], fun _ _ _ => rfl, fun _ _ => rfl⟩

theorem Gives.after_helper {m : LowerM α} {x : Except Fault α} (hm : Gives o s m x components)
    (h : Helper) : Gives o s (do helper h; m) x components :=
  (gives_helper h).bind fun _ => hm

theorem Gives.after_component {m : LowerM α} {x : Except Fault α} (hm : Gives o s m x components)
    (name : String) :
    Gives o s (do helper .resolveComponent; component name; m) x (name :: components) := by
  have h : Gives o s (do helper .resolveComponent; component name) (.ok ()) [name] := by
    refine ⟨[.component name], fun c _ _ => ?_, fun _ _ => rfl⟩
    change answer (.ok ()) ((c.addHelper .resolveComponent).addComponent name) = _
    by_cases h : c.components.contains name = true
    all_goals simp only [Context.addComponent, Context.addHelper, Context.noteAll, List.map_cons,
      List.map_nil, List.foldl_cons, List.foldl_nil, Note.toHelper, Note.addComponent, h]
    all_goals rfl
  exact h.bind fun _ => hm

theorem gives_get {f : Context → LowerM α} {m : LowerM α} {x : Except Fault α}
    (hf : ∀ c, c.options = o → c.scope = s → f c = m) (hm : Gives o s m x components) :
    Gives o s (do f (← get)) x components := by
  obtain ⟨ns, hx, hns⟩ := hm
  refine ⟨ns, fun c ho hs => ?_, hns⟩
  rw [← hx c ho hs, ← hf c ho hs]
  rfl

/-- A step over a list registers the components of its items in their order. -/
theorem gives_mapM_of_mem {f : α → LowerM β} {g : α → Except Fault β} {names : α → List String}
    {as : List α} (hf : ∀ a ∈ as, Gives o s (f a) (g a) (names a)) :
    Gives o s (as.mapM f) (as.mapM g) (as.flatMap names) := by
  induction as with
  | nil => exact gives_pure _
  | cons a as ih =>
    obtain ⟨ha, has⟩ := List.forall_mem_cons.mp hf
    rw [List.mapM_cons, List.mapM_cons, List.flatMap_cons]
    exact ha.bind fun _ => (ih has).andThen fun _ => gives_pure _

theorem gives_mapM {f : α → LowerM β} {g : α → Except Fault β}
    (hf : ∀ a, Gives o s (f a) (g a) []) (as : List α) :
    Gives o s (as.mapM f) (as.mapM g) [] := by
  induction as with
  | nil => exact gives_pure _
  | cons a as ih =>
    rw [List.mapM_cons, List.mapM_cons]
    exact (hf a).bind fun _ => ih.bind fun _ => gives_pure _

theorem gives_optionMapM {f : α → LowerM β} {g : α → Except Fault β}
    (hf : ∀ a, Gives o s (f a) (g a) []) (a : Option α) :
    Gives o s (a.mapM f) (a.mapM g) [] := by
  cases a with
  | none => exact gives_pure _
  | some a => exact (hf a).map some

/-- The answer of a step that succeeds, and what it leaves as it was. -/
theorem Gives.of_ok {m : LowerM α} {x : Except Fault α} {c d : Context} {a : α}
    (hm : Gives o s m x components) (ho : c.options = o) (hs : c.scope = s) (h : m c = .ok a d) :
    x = .ok a ∧ d.options = o ∧ d.scope = s := by
  obtain ⟨ns, hx, -⟩ := hm
  rw [hx c ho hs] at h
  cases x with
  | ok b =>
    cases h
    exact ⟨rfl, ho, hs⟩
  | error f => cases h

end

theorem registers_pure (a : α) : Registers (pure a) := fun _ _ => ⟨_, _, gives_pure a⟩

theorem registers_helper (h : Helper) : Registers (helper h) := fun _ _ => ⟨_, _, gives_helper h⟩

theorem registers_refuse (d : Diagnostic) : Registers (refuse d : LowerM α) :=
  fun _ _ => ⟨_, [], gives_refuse d⟩

theorem Registers.bind {m : LowerM α} {f : α → LowerM β} (hm : Registers m)
    (hf : ∀ a, Registers (f a)) : Registers (m >>= f) := by
  intro o s
  obtain ⟨x, _, ns, hx, -⟩ := hm o s
  cases x with
  | error e =>
    refine ⟨.error e, [], ns, fun c ho hs => ?_, fun _ h => by cases h⟩
    rw [step_bind, hx c ho hs]
    rfl
  | ok a =>
    obtain ⟨y, _, ms, hy, -⟩ := hf a o s
    refine ⟨y, _, ns ++ ms, fun c ho hs => ?_, fun _ _ => rfl⟩
    rw [step_bind, hx c ho hs, Context.noteAll_append]
    exact hy _ ho hs

/-- A step over a list registers if it does at each of the items. -/
theorem registers_mapM {f : α → LowerM β} {as : List α} (hf : ∀ a ∈ as, Registers (f a)) :
    Registers (as.mapM f) := by
  induction as with
  | nil => exact registers_pure _
  | cons a as ih =>
    obtain ⟨ha, has⟩ := List.forall_mem_cons.mp hf
    rw [List.mapM_cons]
    exact ha.bind fun _ => (ih has).bind fun _ => registers_pure _

/-- A step that registers does not look at the cursor. -/
theorem Registers.run_at {m : LowerM α} (hm : Registers m) (c : Context) (k : Cursor) :
    m (c.at k) = match m c with
      | .ok a d => .ok a (d.at k)
      | .error f d => .error f (d.at k) := by
  obtain ⟨x, _, ns, hx, -⟩ := hm c.options c.scope
  rw [hx c rfl rfl, hx (c.at k) rfl rfl]
  cases x <;> rfl

/-- A step that registers leaves options and scope as they were. -/
theorem Registers.frame {m : LowerM α} (hm : Registers m) {c d : Context} {a : α}
    (h : m c = .ok a d) : d.options = c.options ∧ d.scope = c.scope := by
  obtain ⟨x, components, hx⟩ := hm c.options c.scope
  exact (hx.of_ok rfl rfl h).2

end LowerM

end TemplateCompiler
