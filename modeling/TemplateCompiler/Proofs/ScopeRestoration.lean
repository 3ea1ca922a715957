import TemplateCompiler.Proofs.Answers
import TemplateCompiler.Proofs.ScopeStack

/-! Walks leave the names in scope as they found them, whether they finish or stop. A loop takes its
names back when it is left; where the walk stops before that, the mark of the node does it. -/
namespace TemplateCompiler

variable {σ α β : Type}

namespace VisitM

/-- The scope that a step leaves behind, whether it finishes or stops. -/
def scopeAfter (step : VisitM σ α) (v : Visit σ) : Scope :=
  match step v with
  | .ok _ w => w.context.scope
  | .error _ w => w.context.scope

private theorem scopeAfter_bind (m : VisitM σ α) (f : α → VisitM σ β) (v : Visit σ) :
    (m >>= f).scopeAfter v = match m v with
      | .ok a w => (f a).scopeAfter w
      | .error _ w => w.context.scope := by
  rw [scopeAfter, step_bind]
  cases m v <;> rfl

/-- The step does not change the scope. -/
def Keeps (step : VisitM σ α) : Prop :=
  ∀ v : Visit σ, v.context.scope.Positive → step.scopeAfter v = v.context.scope

private theorem Keeps.of_ok {m : VisitM σ α} (hm : Keeps m) {v w : Visit σ} {a : α}
    (hv : v.context.scope.Positive) (h : m v = .ok a w) : w.context.scope = v.context.scope := by
  rw [← hm v hv, scopeAfter, h]

private theorem Keeps.of_error {m : VisitM σ α} (hm : Keeps m) {v w : Visit σ} {f : Fault}
    (hv : v.context.scope.Positive) (h : m v = .error f w) :
    w.context.scope = v.context.scope := by
  rw [← hm v hv, scopeAfter, h]

private theorem Keeps.bind_leaves {m : VisitM σ α} {f : α → VisitM σ β} {v : Visit σ}
    {p : Scope → Prop}
    (hm : Keeps m) (hv : v.context.scope.Positive) (hp : p v.context.scope)
    (hf : ∀ a w, w.context.scope = v.context.scope → p ((f a).scopeAfter w)) :
    p ((m >>= f).scopeAfter v) := by
  rw [scopeAfter_bind]
  cases h : m v with
  | ok a w => exact hf a w (hm.of_ok hv h)
  | error e w =>
    rw [← hm.of_error hv h] at hp
    exact hp

private theorem Keeps.bind {m : VisitM σ α} {f : α → VisitM σ β} (hm : Keeps m)
    (hf : ∀ a, Keeps (f a)) :
    Keeps (m >>= f) := fun v hv =>
  hm.bind_leaves (p := (· = v.context.scope)) hv rfl fun a w hw =>
    (hf a w (hw.symm ▸ hv)).trans hw

private theorem keeps_get {f : Visit σ → VisitM σ α} (hf : ∀ v, Keeps (f v)) : Keeps
    (do f (← get)) :=
  fun v hv => hf v v hv

private theorem keeps_pure (a : α) : Keeps (pure a : VisitM σ α) := fun _ _ => rfl

private theorem keeps_setNode (node : Child) : Keeps
    (setNode node : VisitM σ Unit) := fun _ _ => rfl

private theorem keeps_lower {m : LowerM α} (hm : LowerM.Registers m) : Keeps
    (lower m : VisitM σ α) := by
  intro v _
  obtain ⟨x, _, ns, hx, -⟩ := hm v.context.options v.context.scope
  rw [scopeAfter, lower, hx v.context rfl rfl]
  cases x <;> rfl

/-- Wherever the step finishes, its answer has the property. -/
def Answers (step : VisitM σ α) (q : α → Prop) : Prop := ∀ v a w, step v = .ok a w → q a

private theorem answers_pure {a : α} {q : α → Prop} (h : q a) : Answers
    (pure a : VisitM σ α) q := by
  intro v b w hb
  cases hb
  exact h

private theorem answers_bind {m : VisitM σ α} {f : α → VisitM σ β} {q : β → Prop}
    (hf : ∀ a, Answers (f a) q) : Answers (m >>= f) q := by
  intro v b w hb
  obtain ⟨a, u, -, hb⟩ := step_bind_ok.mp hb
  exact hf a u b w hb

end VisitM

namespace Lowering

open VisitM

private theorem keeps_leaveText : Keeps (leaveText : VisitM σ Unit) := by
  refine keeps_get fun ⟨_, node, _⟩ => ?_
  cases node with
  | element e => exact keeps_setNode _
  | loop l => exact keeps_setNode _
  | _ => exact keeps_pure _

private theorem keeps_leaveElement : Keeps (leaveElement standardDirectives : VisitM σ Unit) := by
  refine keeps_get fun ⟨_, node, _⟩ => ?_
  cases node with
  | element e => exact (keeps_lower (registers_finishElement e)).bind fun _ => keeps_setNode _
  | _ => exact keeps_pure _

/-- Neither the pass nor what it leaves to do changes the scope. -/
structure Quiet (pass : Pass σ) : Prop where
  entry : Keeps pass
  exit : Answers pass fun exit => ∀ e ∈ exit, Keeps e

private theorem quiet_processExpressions : Quiet (processExpressions : Pass σ) where
  entry := by
    refine keeps_get fun ⟨_, node, _⟩ => ?_
    cases node with
    | interpolation i =>
      exact (keeps_lower (registers_expression i.content)).bind fun _ =>
        (keeps_setNode _).bind fun _ => keeps_pure _
    | element e =>
      exact (keeps_lower (registers_processProps e.props)).bind fun _ =>
        (keeps_setNode _).bind fun _ => keeps_pure _
    | _ => exact keeps_pure _
  exit := by
    refine answers_bind fun ⟨_, node, _⟩ => ?_
    cases node with
    | interpolation i => exact answers_bind fun _ => answers_bind fun _ => answers_pure (by simp)
    | element e => exact answers_bind fun _ => answers_bind fun _ => answers_pure (by simp)
    | _ => exact answers_pure (by simp)

private theorem quiet_buildElements : Quiet (buildElements standardDirectives : Pass σ) where
  entry := by
    refine keeps_get fun ⟨_, node, _⟩ => ?_
    cases node <;> exact keeps_pure _
  exit := by
    refine answers_bind fun ⟨_, node, _⟩ => ?_
    cases node with
    | element e => exact answers_pure (by simp [keeps_leaveElement])
    | _ => exact answers_pure (by simp)

private theorem quiet_joinText : Quiet (joinText : Pass σ) where
  entry := by
    refine keeps_get fun ⟨_, node, _⟩ => ?_
    cases node <;> exact keeps_pure _
  exit := by
    refine answers_bind fun ⟨_, node, _⟩ => ?_
    cases node with
    | element e => exact answers_pure (by simp [keeps_leaveText])
    | loop l => exact answers_pure (by simp [keeps_leaveText])
    | _ => exact answers_pure (by simp)

/-- The scope `t` is `s` with further names declared. -/
def Above (s t : Scope) : Prop := ∃ names, t = s.under names

private theorem above_refl (s : Scope) : Above s s := ⟨[], rfl⟩

private theorem above_add (s : Scope) (names : List String) : Above s (s.add names) :=
  ⟨names.reverse, s.add_eq_under names⟩

/-- Where the scope is `t`, all that is left to do can be done or stops without taking back a name
of `s`. -/
def Closes (s t : Scope) (exits : List (Exit σ)) : Prop :=
  ∀ v : Visit σ, v.context.scope = t → Above s ((leaveNode exits).scopeAfter v)

variable {s t : Scope}

private theorem Closes.cons {exit : Exit σ} {exits : List (Exit σ)} (ht : t.Positive)
    (hst : Above s t)
    (he : Keeps exit) (h : Closes s t exits) : Closes s t (exit :: exits) := by
  intro v hv
  rw [leaveNode]
  refine he.bind_leaves (p := Above s) (hv.symm ▸ ht) (hv.symm ▸ hst) fun _ w hw => ?_
  exact h w (hw.trans hv)

/-- What has become of the names while a node was entered from the scope `s`. -/
def Entered (s : Scope) : EStateM.Result Fault (Visit σ) (Option (List (Exit σ))) → Prop
  | .error _ w => Above s w.context.scope
  | .ok none w => Above s w.context.scope
  | .ok (some exits) w =>
    w.context.scope.Positive ∧ Above s w.context.scope ∧ Closes s w.context.scope exits

private theorem enterNode_quiet_passes {passes : List (Pass σ)} (hq : ∀ pass ∈ passes, Quiet pass)
    {exits : List (Exit σ)} {v : Visit σ} (hv : v.context.scope.Positive)
    (hs : Above s v.context.scope) (hc : Closes s v.context.scope exits) :
    Entered s (enterNode passes exits v) := by
  induction passes generalizing exits v with
  | nil => exact ⟨hv, hs, hc⟩
  | cons pass passes ih =>
    obtain ⟨hpass, hpasses⟩ := List.forall_mem_cons.mp hq
    rw [enterNode, step_bind]
    cases h : pass v with
    | error f w =>
      rw [← hpass.entry.of_error hv h] at hs
      exact hs
    | ok exit w =>
      have hw := hpass.entry.of_ok hv h
      rw [← hw] at hv hs hc
      simp only [step_bind, step_get]
      split
      · exact hs
      · refine ih hpasses hv hs ?_
        cases exit with
        | none => exact hc
        | some exit => exact Closes.cons hv hs (hpass.exit v _ w h exit rfl) hc

/-- What is left to do of a loop once its names are out of scope. -/
def finishVisited : VisitM σ Unit := do
  match (← get).node with
  | .loop l => do
    let l' ← VisitM.lower (finishLoop l)
    VisitM.setNode (.loop l')
  | _ => pure ()

private theorem keeps_finishVisited : Keeps (finishVisited : VisitM σ Unit) := by
  refine keeps_get fun ⟨_, node, _⟩ => ?_
  cases node with
  | loop l => exact (keeps_lower (registers_finishLoop l)).bind fun _ => keeps_setNode _
  | _ => exact keeps_pure _

private theorem closes_leaveLoop (hs : s.Positive) (names : List String) :
    Closes s (s.add names) [(leaveLoop names : Exit σ)] := by
  intro v hv
  have hremove : v.context.scope.remove names = s := by rw [hv, Scope.remove_add hs]
  have hkeeps := (keeps_finishVisited.bind fun _ => keeps_pure ())
    { v with context := v.context.removeNames names } (by simpa [Context.removeNames, hremove])
  have hrun : (leaveNode [leaveLoop names]).scopeAfter v = s := hkeeps.trans hremove
  exact hrun.symm ▸ above_refl s

private theorem entered_lowerLoops {v : Visit σ} (hv : v.context.scope.Positive) :
    match lowerLoops v with
    | .error _ w => w.context.scope = v.context.scope
    | .ok exit w => w.context.scope.Positive ∧ Above v.context.scope w.context.scope ∧
      Closes v.context.scope w.context.scope exit.toList := by
  obtain ⟨c, node, mem⟩ := v
  have hnil : c.scope.Positive ∧ Above c.scope c.scope ∧
      Closes c.scope c.scope ([] : List (Exit σ)) :=
    ⟨hv, above_refl _, fun w hw => hw.symm ▸ above_refl _⟩
  cases node with
  | element e =>
    simp only [lowerLoops, step_bind, step_get]
    cases takeDirective? "for" e.props with
    | none => exact hnil
    | some taken =>
      obtain ⟨d, props⟩ := taken
      simp only [step_bind, VisitM.setNode, step_modify]
      cases headerOf d with
      | error r => rfl
      | ok parts =>
        simp only [step_bind]
        have hkeeps := keeps_lower (σ := σ) (registers_simple parts.source)
        cases h : VisitM.lower parts.source.process
            (⟨c, .element { e with props }, mem⟩ : Visit σ) with
        | error f w => exact hkeeps.of_error (by exact hv) h
        | ok source w =>
          have hw : w.context.scope = c.scope := hkeeps.of_ok (by exact hv) h
          let names := (loopOver { e with props } { parts with source }).aliasNames
          have hadd : (w.context.addNames names).scope = c.scope.add names := by
            rw [Context.addNames, hw]
          change (w.context.addNames names).scope.Positive ∧
            Above c.scope (w.context.addNames names).scope ∧
            Closes c.scope (w.context.addNames names).scope [leaveLoop names]
          rw [hadd]
          exact ⟨hv.add names, above_add _ names, closes_leaveLoop hv names⟩
  | _ => exact hnil

private theorem entered_standardPasses {v : Visit σ} (hv : v.context.scope.Positive) :
    Entered v.context.scope (enterNode standardPasses [] v) := by
  have hloops := entered_lowerLoops hv
  rw [standardPasses, enterNode, step_bind]
  cases h : lowerLoops v with
  | error f w =>
    rw [h] at hloops
    exact hloops.symm ▸ above_refl _
  | ok exit w =>
    rw [h] at hloops
    obtain ⟨hpositive, habove, hcloses⟩ := hloops
    simp only [step_bind, step_get]
    split
    · exact habove
    · refine enterNode_quiet_passes ?_ hpositive habove (by simpa using hcloses)
      simp [quiet_processExpressions, quiet_buildElements, quiet_joinText]

private theorem walkList_scope {visit : VisitM σ Unit} (hvisit : Keeps visit) (parent : NodeKind)
    (index : Nat) (cs : List Child) (c : Context) (mem : σ) (hc : c.scope.Positive) :
    (walkList visit parent index cs c mem).context.scope = c.scope := by
  induction cs generalizing index c mem with
  | nil => rfl
  | cons child rest ih =>
    rw [walkList]
    simp only
    split
    · rename_i f v h
      exact hvisit.of_error (by exact hc) h
    · rename_i v h
      have hv : v.context.scope = c.scope := hvisit.of_ok (by exact hc) h
      split
      · exact (ih index _ _ (hv.symm ▸ hc)).trans hv
      · exact (ih (index + 1) _ _ (hv.symm ▸ hc)).trans hv

private theorem keeps_walkWithin {visit : VisitM σ Unit} (hvisit : Keeps visit) (kind : NodeKind)
    (cs : List Child) (rebuild : List Child → Child) :
    Keeps (walkWithin visit kind cs rebuild) := by
  intro v hv
  have h := walkList_scope hvisit kind 0 cs v.context v.memory hv
  rw [VisitM.scopeAfter, walkWithin]
  cases (walkList visit kind 0 cs v.context v.memory).fault <;> exact h

private theorem keeps_descend {visit : VisitM σ Unit} (hvisit : Keeps visit) : Keeps
    (descend visit) := by
  refine keeps_get fun ⟨_, node, _⟩ => ?_
  cases node with
  | interpolation i => exact keeps_lower (LowerM.registers_helper _)
  | element e => exact keeps_walkWithin hvisit _ _ _
  | loop l => exact keeps_walkWithin hvisit _ _ _
  | _ => exact keeps_pure _

/-- A node goes back to the scope from which it was entered, as long as nothing of that scope has
been taken back. -/
private theorem keepingScope_scope {step : VisitM σ α} {v : Visit σ} (hv : v.context.scope.Positive)
    (h : Above v.context.scope (step.scopeAfter v)) :
    (VisitM.keepingScope step).scopeAfter v = v.context.scope := by
  obtain ⟨names, h⟩ := h
  rw [VisitM.scopeAfter] at h
  rw [VisitM.scopeAfter, VisitM.keepingScope]
  cases hstep : step v with
  | ok a w =>
    rw [hstep] at h
    simp only [h, Scope.restore_under hv]
  | error f w =>
    rw [hstep] at h
    simp only [h, Scope.restore_under hv]

private theorem keeps_visitNode (limit : Nat) : Keeps
    (visitNode (standardPasses (σ := σ)) limit) := by
  induction limit with
  | zero => exact fun _ _ => rfl
  | succ limit ih =>
    intro v hv
    rw [visitNode]
    refine keepingScope_scope hv ?_
    have hentered := entered_standardPasses
      (v := { v with context := v.context.setCurrent v.node.kind }) hv
    rw [VisitM.scopeAfter_bind, step_modify]
    simp only [VisitM.scopeAfter_bind]
    generalize enterNode standardPasses [] _ = entered at hentered ⊢
    cases entered with
    | error f w => exact hentered
    | ok exits w =>
      cases exits with
      | none => exact hentered
      | some exits =>
        obtain ⟨hpositive, habove, hcloses⟩ := hentered
        refine (keeps_descend ih).bind_leaves (p := Above _) hpositive habove fun _ u hu => ?_
        exact hcloses _ hu

/-- Walking children, or a single node, leaves the scope as it was: the stack of names and their
counts. It does so from every scope that can arise, over every tree, and also where it stops. -/
theorem walk_restores_scope {c : Context} (hc : c.scope.Reachable) (mem : σ) :
    (∀ parent cs, (walkChildren standardPasses parent cs c mem).context.scope = c.scope) ∧
      ∀ node, (walkNode standardPasses node).scopeAfter ⟨c, node, mem⟩ = c.scope :=
  ⟨fun parent cs => walkList_scope (keeps_visitNode _) parent 0 cs c mem hc.positive,
    fun node => keeps_visitNode _ ⟨c, node, mem⟩ hc.positive⟩

/-- A loop whose two names are the same and hide an outer one, around a loop that is refused. -/
def shadowedRows : Child :=
  .element {
    tag := "ul"
    props := [.directive { name := "for", exp := some (.simple (.code "(x, x) in xs" .stub)) }]
    children := [.element {
      tag := "li"
      props := [.directive { name := "for", exp := some (.simple (.code "x" .stub)) }] }] }

theorem shadowedRows_restores_scope :
    let c : Context := { scope := .of ["x", "y"] }
    (walkChildren standardPasses .root [shadowedRows] c ()).fault =
        some (.refused (.of .forMalformed .stub)) ∧
      (walkChildren standardPasses .root [shadowedRows] c ()).context.scope = .of ["x", "y"] ∧
      (walkNode standardPasses shadowedRows).scopeAfter ⟨c, shadowedRows, ()⟩ = .of ["x", "y"] := by
  intro c
  have h := walk_restores_scope (c := c) (.add _ .empty) ()
  exact ⟨by decide +kernel, h.1 _ _, h.2 _⟩

end Lowering

end TemplateCompiler
