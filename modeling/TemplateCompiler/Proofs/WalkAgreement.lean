import TemplateCompiler.Proofs.Lexical

/-! The walk, which keeps the names in scope in its state, agrees with the lexical recursion: on
every tree, with the same faults, and without ever reaching its depth limit. -/
namespace TemplateCompiler.Lowering

open LowerM

variable {σ : Type}

/-- The visit of a node has the given result of its lowering. The cursor may have moved, but no
removal is asked for. -/
inductive Agrees (mem : σ) :
    EStateM.Result Fault Context Child → EStateM.Result Fault (Visit σ) Unit → Prop
  | ok {node : Child} {d : Context} (k : Cursor) (hk : k.removed = false) :
      Agrees mem (.ok node d) (.ok () ⟨d.at k, node, mem⟩)
  | error {f : Fault} {d : Context} {v : Visit σ} : Agrees mem (.error f d) (.error f v)

/-- The walk over a list has the given result of its lowering. -/
inductive WalkAgrees (mem : σ) :
    EStateM.Result Fault Context (List Child) → Walked σ → Prop
  | ok {cs : List Child} {d : Context} (k : Cursor) (hk : k.removed = false) :
      WalkAgrees mem (.ok cs d) ⟨d.at k, mem, cs, none⟩
  | error {f : Fault} {d c : Context} {mem' : σ} {cs : List Child} :
      WalkAgrees mem (.error f d) ⟨c, mem', cs, some f⟩

private theorem lower_at {α : Type} {m : LowerM α} (hm : Registers m) (c : Context) (k : Cursor)
    (node : Child) (mem : σ) :
    VisitM.lower m ⟨c.at k, node, mem⟩ = match m c with
      | .ok a d => .ok a ⟨d.at k, node, mem⟩
      | .error f d => .error f ⟨d.at k, node, mem⟩ := by
  rw [VisitM.lower, hm.run_at]
  cases m c <;> rfl

theorem enterNode_cons {pass : Pass σ} {passes : List (Pass σ)} {exits : List (Exit σ)}
    {v w : Visit σ} {exit : Option (Exit σ)} (h : pass v = .ok exit w)
    (hr : w.context.cursor.removed = false) :
    enterNode (pass :: passes) exits v = enterNode passes (exit.toList ++ exits) w := by
  rw [enterNode, step_bind, h]
  simp only [step_bind, step_get, hr]
  rfl

private theorem enterNode_error {pass : Pass σ} {passes : List (Pass σ)} {exits : List (Exit σ)}
    {v w : Visit σ} {f : Fault} (h : pass v = .error f w) :
    enterNode (pass :: passes) exits v = .error f w := by
  rw [enterNode, step_bind, h]

private theorem enterNode_quiet {c : Context} (hc : c.cursor.removed = false) {node : Child}
    {mem : σ} {exit : Option (Exit σ)} {loops expressions elements joins : Pass σ}
    (hl : loops ⟨c, node, mem⟩ = .ok none ⟨c, node, mem⟩)
    (he : expressions ⟨c, node, mem⟩ = .ok none ⟨c, node, mem⟩)
    (hb : elements ⟨c, node, mem⟩ = .ok none ⟨c, node, mem⟩)
    (hj : joins ⟨c, node, mem⟩ = .ok exit ⟨c, node, mem⟩) :
    enterNode [loops, expressions, elements, joins] [] ⟨c, node, mem⟩ =
      .ok (some exit.toList) ⟨c, node, mem⟩ := by
  refine (enterNode_cons hl hc).trans ?_
  refine (enterNode_cons he hc).trans ?_
  refine (enterNode_cons hb hc).trans ?_
  refine (enterNode_cons hj hc).trans ?_
  cases exit <;> rfl

private theorem agrees_keepingScope {step : VisitM σ Unit} {c : Context} {k : Cursor} {node : Child}
    {mem : σ} {m : LowerM Child} (hm : Registers m)
    (h : Agrees mem (m c) (step ⟨c.at k, node, mem⟩)) :
    Agrees mem (m c) (VisitM.keepingScope step ⟨c.at k, node, mem⟩) := by
  unfold VisitM.keepingScope
  generalize step ⟨c.at k, node, mem⟩ = r at h ⊢
  cases hmc : m c with
  | ok node' d =>
    rw [hmc] at h
    obtain ⟨k', hk⟩ := h
    have hs : d.scope.restore c.scope.mark = d.scope := by
      rw [(hm.frame hmc).2, Scope.restore_mark]
    simp only [hs]
    exact .ok k' hk
  | error f d =>
    rw [hmc] at h
    cases h
    exact .error

/-- What a visit does once the node has been entered. -/
private def inside (visit : VisitM σ Unit) (exits : List (Exit σ)) : VisitM σ Unit := do
  let cursor := (← get).context.cursor
  descend visit
  restoreCursor cursor.parent cursor.index
  leaveNode exits

private theorem visitNode_entered {passes : List (Pass σ)} {exits : List (Exit σ)} {n : Nat}
    {c : Context} {k : Cursor} {node : Child} {mem : σ} {w : Visit σ} {m : LowerM Child}
    (hm : Registers m)
    (he : enterNode passes [] ⟨c.at { k with current := some node.kind }, node, mem⟩ =
      .ok (some exits) w)
    (h : Agrees mem (m c) (inside (visitNode passes n) exits w)) :
    Agrees mem (m c) (visitNode passes (n + 1) ⟨c.at k, node, mem⟩) := by
  rw [visitNode]
  apply agrees_keepingScope hm
  rw [step_bind, step_modify]
  simp only [step_bind, Context.setCurrent, he]
  exact h

private theorem visitNode_failed {passes : List (Pass σ)} {n : Nat} {c d : Context} {k : Cursor}
    {node : Child} {mem : σ} {w : Visit σ} {f : Fault}
    (he : enterNode passes [] ⟨c.at { k with current := some node.kind }, node, mem⟩ =
      .error f w) :
    Agrees mem (.error f d) (visitNode passes (n + 1) ⟨c.at k, node, mem⟩) := by
  rw [visitNode, VisitM.keepingScope, step_bind, step_modify]
  simp only [step_bind, Context.setCurrent, he]
  exact .error

/-- A walk over the children and then the way out. The children are lowered to `r`, the node as
a whole to `s`. -/
private theorem inside_agrees {visit : VisitM σ Unit} {exits : List (Exit σ)} {c : Context}
    {node : Child} {kind : NodeKind} {cs : List Child} (rebuild : List Child → Child) {mem : σ}
    {r : EStateM.Result Fault Context (List Child)} {s : EStateM.Result Fault Context Child}
    (hd : descend visit ⟨c, node, mem⟩ = walkWithin visit kind cs rebuild ⟨c, node, mem⟩)
    (hr : WalkAgrees mem r (walkList visit kind 0 cs c mem))
    (herror : ∀ f d, r = .error f d → ∃ d', s = .error f d')
    (hok : ∀ cs' d k, r = .ok cs' d → k.removed = false →
      Agrees mem s (leaveNode exits ⟨d.at k, rebuild cs', mem⟩)) :
    Agrees mem s (inside visit exits ⟨c, node, mem⟩) := by
  simp only [inside, step_bind, step_get, hd, walkWithin]
  generalize walkList visit kind 0 cs c mem = w at hr ⊢
  cases r with
  | error f d =>
    obtain ⟨d', rfl⟩ := herror f d rfl
    cases hr
    exact .error
  | ok cs' d =>
    obtain ⟨k, hk⟩ := hr
    let k' : Cursor :=
      { k with
        current := some (rebuild cs').kind
        parent := c.cursor.parent
        index := c.cursor.index }
    exact hok cs' d k' rfl hk

private theorem visit_text {c : Context} {k : Cursor} (hk : k.removed = false) (t : TextNode)
    (mem : σ) (n : Nat) :
    Agrees mem (Lexical.child (.text t) c)
      (visitNode standardPasses (n + 1) ⟨c.at k, .text t, mem⟩) := by
  refine visitNode_entered (Lexical.registers_child _) (enterNode_quiet hk rfl rfl rfl rfl) ?_
  rw [Lexical.child]
  exact .ok _ hk

private theorem visit_compound {c : Context} {k : Cursor} (hk : k.removed = false) (t : Compound)
    (mem : σ) (n : Nat) :
    Agrees mem (Lexical.child (.compound t) c)
      (visitNode standardPasses (n + 1) ⟨c.at k, .compound t, mem⟩) := by
  refine visitNode_entered (Lexical.registers_child _) (enterNode_quiet hk rfl rfl rfl rfl) ?_
  rw [Lexical.child]
  exact .ok _ hk

private theorem visit_interpolation {c : Context} {k : Cursor} (hk : k.removed = false)
    (i : Interpolation) (mem : σ) (n : Nat) :
    Agrees mem (Lexical.child (.interpolation i) c)
      (visitNode standardPasses (n + 1) ⟨c.at k, .interpolation i, mem⟩) := by
  let k' : Cursor := { k with current := some .interpolation }
  have hpass : processExpressions ⟨c.at k', .interpolation i, mem⟩ =
      match i.content.process c with
      | .ok content d => .ok none ⟨d.at k', .interpolation { i with content }, mem⟩
      | .error f d => .error f ⟨d.at k', .interpolation i, mem⟩ := by
    simp only [processExpressions, step_bind, step_get]
    rw [lower_at (registers_expression i.content)]
    cases i.content.process c <;> rfl
  cases h : i.content.process c with
  | error f d =>
    rw [Lexical.child, step_bind, h]
    rw [h] at hpass
    exact visitNode_failed ((enterNode_cons rfl hk).trans (enterNode_error hpass))
  | ok content d =>
    rw [h] at hpass
    have he : enterNode standardPasses [] ⟨c.at k', .interpolation i, mem⟩ =
        .ok (some []) ⟨d.at k', .interpolation { i with content }, mem⟩ := by
      refine (enterNode_cons rfl hk).trans ?_
      refine (enterNode_cons hpass hk).trans ?_
      refine (enterNode_cons rfl hk).trans ?_
      exact enterNode_cons rfl hk
    refine visitNode_entered (Lexical.registers_child _) he ?_
    rw [Lexical.child, step_bind, h]
    exact .ok _ hk

/-- The walk over these children agrees with their lowering, wherever they stand. -/
def Walks (visit : VisitM σ Unit) (cs : List Child) : Prop :=
  ∀ parent index (c : Context) (k : Cursor) mem, c.scope.Positive → k.removed = false →
    WalkAgrees mem (Lexical.children cs c) (walkList visit parent index cs (c.at k) mem)

private theorem visit_loop {n : Nat} {l : Loop}
    (hw : Walks (visitNode (standardPasses (σ := σ)) n) l.children) {c : Context} {k : Cursor}
    (hp : c.scope.Positive) (hk : k.removed = false) (mem : σ) :
    Agrees mem (Lexical.child (.loop l) c)
      (visitNode standardPasses (n + 1) ⟨c.at k, .loop l, mem⟩) := by
  refine visitNode_entered (Lexical.registers_child _) (enterNode_quiet hk rfl rfl rfl rfl) ?_
  rw [Lexical.child, Lexical.loop_eq]
  refine inside_agrees (fun cs => .loop { l with children := cs }) rfl
    (hw .loop 0 c { k with current := some .loop } mem hp hk) ?_ ?_
  · intro f d h
    exact ⟨d, by rw [step_bind, h]⟩
  · intro cs d k' h hk'
    rw [step_bind, h]
    exact .ok k' hk'

private theorem leave_element {c : Context} {k : Cursor} (hk : k.removed = false) (e : Element)
    (mem : σ) :
    Agrees mem ((do
      let e' ← finishElement standardDirectives { e with children := mergeText e.children }
      return .element e' : LowerM Child) c)
      (leaveNode [leaveText, leaveElement standardDirectives] ⟨c.at k, .element e, mem⟩) := by
  have h := lower_at (registers_finishElement { e with children := mergeText e.children }) c k
    (.element { e with children := mergeText e.children }) mem
  simp only [leaveNode, leaveText, leaveElement, step_bind, step_get, VisitM.setNode, step_modify,
    h]
  cases finishElement standardDirectives { e with children := mergeText e.children } c with
  | error f d => exact .error
  | ok e' d => exact .ok k hk

private theorem visit_plain {n : Nat} {e : Element} (hf : takeDirective? "for" e.props = none)
    (hw : Walks (visitNode (standardPasses (σ := σ)) n) e.children) {c : Context} {k : Cursor}
    (hp : c.scope.Positive) (hk : k.removed = false) (mem : σ) :
    Agrees mem (Lexical.plain e (Lexical.children e.children) c)
      (visitNode standardPasses (n + 1) ⟨c.at k, .element e, mem⟩) := by
  have hr := registers_processProps e.props
  let k' : Cursor := { k with current := some .element }
  have hloops : lowerLoops ⟨c.at k', .element e, mem⟩ = .ok none ⟨c.at k', .element e, mem⟩ := by
    simp only [lowerLoops, step_bind, step_get, hf]
    rfl
  cases h : e.props.mapM processProp c with
  | error f d =>
    have hpass : processExpressions ⟨c.at k', .element e, mem⟩ =
        .error f ⟨d.at k', .element e, mem⟩ := by
      simp only [processExpressions, step_bind, step_get]
      rw [lower_at hr, h]
    rw [Lexical.plain, step_bind, h]
    exact visitNode_failed ((enterNode_cons hloops hk).trans (enterNode_error hpass))
  | ok props d =>
    have hpass : processExpressions ⟨c.at k', .element e, mem⟩ =
        .ok none ⟨d.at k', .element { e with props }, mem⟩ := by
      simp only [processExpressions, step_bind, step_get]
      rw [lower_at hr, h]
      rfl
    have he : enterNode standardPasses [] ⟨c.at k', .element e, mem⟩ =
        .ok (some [leaveText, leaveElement standardDirectives])
          ⟨d.at k', .element { e with props }, mem⟩ := by
      refine (enterNode_cons hloops hk).trans ?_
      refine (enterNode_cons hpass hk).trans ?_
      refine (enterNode_cons rfl hk).trans ?_
      exact enterNode_cons rfl hk
    refine visitNode_entered (Lexical.registers_plain _ (Lexical.registers_children _)) he ?_
    have hp' : d.scope.Positive := (hr.frame h).2 ▸ hp
    rw [Lexical.plain, step_bind, h]
    refine inside_agrees (fun cs => .element { e with props, children := cs }) rfl
      (hw .element 0 d k' mem hp' hk) ?_ ?_
    · intro f d' h
      exact ⟨d', by simp only [step_bind, h]⟩
    · intro cs d' k'' h hk''
      simp only [step_bind, h]
      exact leave_element hk'' { e with props, children := cs } mem

private theorem mergeText_singleton (c : Child) : mergeText [c] = [c] := rfl

private theorem leave_loop {c : Context} {k : Cursor} (hk : k.removed = false)
    (hp : c.scope.Positive) (l : Loop) (node : Child) (names : List String) (mem : σ) :
    Agrees mem ((do
      let l' ← finishLoop { l with children := [node] }
      return .loop l' : LowerM Child) c)
      (leaveNode [leaveText, leaveLoop names]
        ⟨{ c with cursor := k, scope := c.scope.add names }, .loop { l with children := [node] },
          mem⟩) := by
  have h := lower_at (registers_finishLoop { l with children := [node] }) c k
    (.loop { l with children := [node] }) mem
  simp only [leaveNode, leaveText, leaveLoop, step_bind, step_get, VisitM.setNode,
    VisitM.modifyContext, step_modify, Context.removeNames, mergeText_singleton,
    Scope.remove_add hp, h]
  cases finishLoop { l with children := [node] } c with
  | error f d => exact .error
  | ok l' d => exact .ok k hk

private theorem walk_cons {visit : VisitM σ Unit} {m : LowerM Child} {ms : LowerM (List Child)}
    {c : Context} {node : Child} {rest : List Child} {parent : NodeKind} {mem : σ}
    (hv : ∀ k : Cursor, k.removed = false → Agrees mem (m c) (visit ⟨c.at k, node, mem⟩))
    (hrest : ∀ node' d k index, m c = .ok node' d → k.removed = false →
      WalkAgrees mem (ms d) (walkList visit parent index rest (d.at k) mem))
    (k : Cursor) (index : Nat) :
    WalkAgrees mem ((do
      let a ← m
      let as ← ms
      return a :: as : LowerM (List Child)) c)
      (walkList visit parent index (node :: rest) (c.at k) mem) := by
  have hv := hv { k with parent := some parent, index, removed := false } rfl
  rw [walkList]
  simp only
  generalize visit _ = r at hv ⊢
  rw [step_bind]
  cases hm : m c with
  | error f d =>
    rw [hm] at hv
    cases hv
    exact .error
  | ok node' d =>
    rw [hm] at hv
    obtain ⟨k', hk'⟩ := hv
    have hrest := hrest node' d k' (index + 1) hm hk'
    simp only [hk', step_bind]
    generalize walkList visit parent (index + 1) rest (d.at k') mem = w at hrest ⊢
    cases hms : ms d with
    | error f d' =>
      rw [hms] at hrest
      cases hrest
      exact .error
    | ok cs d' =>
      rw [hms] at hrest
      obtain ⟨k'', hk''⟩ := hrest
      exact .ok k'' hk''

private theorem inside_wrapped {visit : VisitM σ Unit} {m : LowerM Child} (hm : Registers m)
    {l : Loop} {e : Element} (hl : l.children = [.element e]) {d : Context} {k : Cursor} {mem : σ}
    (hp : d.scope.Positive)
    (hv : ∀ k : Cursor, k.removed = false →
      Agrees mem (m { d with scope := d.scope.add l.aliasNames })
        (visit ⟨{ d with cursor := k, scope := d.scope.add l.aliasNames }, .element e, mem⟩)) :
    Agrees mem ((do
      let inner ← withNames l.aliasNames m
      let l' ← finishLoop { l with children := [inner] }
      return .loop l' : LowerM Child) d)
      (inside visit [leaveText, leaveLoop l.aliasNames]
        ⟨{ d with cursor := k, scope := d.scope.add l.aliasNames }, .loop l, mem⟩) := by
  have hnil (d : Context) (k : Cursor) (index : Nat) (hk : k.removed = false) :
      WalkAgrees mem ((pure [] : LowerM (List Child)) d)
        (walkList visit .loop index [] (d.at k) mem) := .ok k hk
  have hwalk := walk_cons hv (fun _ d k index _ hk => hnil d k index hk) k 0
  rw [← hl] at hwalk
  refine inside_agrees (fun cs => .loop { l with children := cs }) rfl hwalk ?_ ?_
  · intro f d' h
    rw [step_bind] at h ⊢
    rw [LowerM.withNames]
    cases hi : m { d with scope := d.scope.add l.aliasNames } with
    | error f' d'' =>
      rw [hi] at h
      cases h
      exact ⟨_, rfl⟩
    | ok inner d'' =>
      rw [hi] at h
      cases h
  · intro cs d' k' h hk'
    obtain ⟨inner, d'', hi, h⟩ := step_bind_ok.mp h
    cases h
    rw [step_bind, LowerM.withNames, hi]
    have hs : d'.scope = d.scope.add l.aliasNames := (hm.frame hi).2
    have h := leave_loop (c := { d' with scope := d.scope }) hk' hp l inner l.aliasNames mem
    rwa [← hs] at h

/-- Where an element has a loop directive, a loop over the element without the directive takes its
place, and the names of the loop are declared. -/
private theorem lowerLoops_run {e : Element} {d : Directive} {props : List ElementProp}
    (h : takeDirective? "for" e.props = some (d, props)) (c : Context) (k : Cursor) (mem : σ) :
    lowerLoops ⟨c.at k, .element e, mem⟩ =
      match headerOf d with
      | .error r => .error (.refused r) ⟨c.at k, .element { e with props }, mem⟩
      | .ok parts =>
        match parts.source.process c with
        | .error f d => .error f ⟨d.at k, .element { e with props }, mem⟩
        | .ok source d =>
          let l := loopOver { e with props } { parts with source }
          .ok (some (leaveLoop l.aliasNames))
            ⟨{ d with
              cursor := { k with current := some .loop }
              scope := d.scope.add l.aliasNames }, .loop l, mem⟩ := by
  simp only [lowerLoops, step_bind, step_get, h, VisitM.setNode, step_modify]
  cases headerOf d with
  | error r => rfl
  | ok parts =>
    simp only [step_bind]
    rw [lower_at (registers_simple parts.source)]
    cases parts.source.process c <;> rfl

private theorem visit_wrap {cs : List Child}
    (hw : ∀ m, depthLimitOf cs ≤ m → Walks (visitNode (standardPasses (σ := σ)) m) cs)
    (ds : List Directive) {e : Element} (hcs : e.children = cs) (hds : loopDirectives e.props = ds)
    {n : Nat} (hn : ds.length + depthLimitOf cs ≤ n) {c : Context} {k : Cursor}
    (hp : c.scope.Positive) (hk : k.removed = false) (mem : σ) :
    Agrees mem (Lexical.wrap { e with props := otherProps e.props }
      (Lexical.plain { e with props := otherProps e.props } (Lexical.children e.children)) ds c)
      (visitNode standardPasses (n + 1) ⟨c.at k, .element e, mem⟩) := by
  -- each loop directive costs one level of the limit, and the next visit is of the same element
  -- without it
  induction ds generalizing e n c k with
  | nil =>
    obtain ⟨ht, ho⟩ := takeDirective?_none hds
    rw [Lexical.wrap, ho]
    exact visit_plain ht (hcs ▸ hw n (by simpa using hn)) hp hk mem
  | cons d ds ih =>
    obtain ⟨props', ht, hl, ho⟩ := takeDirective?_some hds
    have hreg := Lexical.registers_wrap { e with props := otherProps e.props }
      (Lexical.registers_plain { e with props := otherProps e.props }
        (Lexical.registers_children e.children))
    let k' : Cursor := { k with current := some .element }
    have hloops := lowerLoops_run ht c k' mem
    cases hh : headerOf d with
    | error r =>
      rw [hh] at hloops
      rw [Lexical.wrap, hh]
      exact visitNode_failed (enterNode_error hloops)
    | ok parts =>
      simp only [hh] at hloops
      have hs := registers_simple parts.source
      have hreg' := hreg (d :: ds)
      rw [Lexical.wrap] at hreg' ⊢
      simp only [hh] at hreg' ⊢
      cases h : parts.source.process c with
      | error f d' =>
        rw [h] at hloops
        rw [step_bind, h]
        exact visitNode_failed (enterNode_error hloops)
      | ok source d' =>
        rw [h] at hloops
        refine visitNode_entered hreg' ((enterNode_cons hloops hk).trans
          ((enterNode_cons rfl hk).trans ((enterNode_cons rfl hk).trans
            (enterNode_cons rfl hk)))) ?_
        rw [List.length_cons] at hn
        obtain ⟨n, rfl⟩ : ∃ m, n = m + 1 := ⟨n - 1, by omega⟩
        have hp' : d'.scope.Positive := (hs.frame h).2 ▸ hp
        rw [step_bind, h]
        refine inside_wrapped (hreg ds)
          (l := loopOver { e with props := props' } { parts with source }) rfl hp' ?_
        intro k hk
        rw [← ho]
        exact ih (e := { e with props := props' }) hcs hl (by omega) (hp'.add _) hk

/-- The visit of the node agrees with its lowering, wherever it stands. -/
def Visits (σ : Type) (limit : Nat) (node : Child) : Prop :=
  ∀ (c : Context) (k : Cursor) (mem : σ), c.scope.Positive → k.removed = false →
    Agrees mem (Lexical.child node c) (visitNode standardPasses limit ⟨c.at k, node, mem⟩)

private theorem walks_of_visits {n : Nat} {cs : List Child} (h : ∀ node ∈ cs, Visits σ n node) :
    Walks (visitNode (standardPasses (σ := σ)) n) cs := by
  induction cs with
  | nil =>
    intro parent index c k mem _ hk
    rw [Lexical.children]
    exact .ok k hk
  | cons node rest ih =>
    obtain ⟨hnode, hrest⟩ := List.forall_mem_cons.mp h
    intro parent index c k mem hp hk
    rw [Lexical.children]
    refine walk_cons (fun k hk => hnode c k mem hp hk) ?_ k index
    intro node' d k' index' h hk'
    have hs : d.scope = c.scope := ((Lexical.registers_child node).frame h).2
    exact ih hrest parent index' d k' mem (hs ▸ hp) hk'

private theorem depthLimit_le_of_mem {node : Child} {cs : List Child} (h : node ∈ cs) :
    node.depthLimit ≤ depthLimitOf cs := by
  induction cs with
  | nil => cases h
  | cons c cs ih =>
    rw [depthLimitOf]
    rcases List.mem_cons.mp h with rfl | h
    · exact Nat.le_max_left _ _
    · exact Nat.le_trans (ih h) (Nat.le_max_right _ _)

private theorem depthLimit_element (e : Element) :
    (Child.element e).depthLimit = 2 + e.props.length + depthLimitOf e.children := by
  cases e
  rw [Child.depthLimit, Element.depthLimit]

private theorem depthLimit_loop (l : Loop) :
    (Child.loop l).depthLimit = 2 + depthLimitOf l.children := by
  cases l
  rw [Child.depthLimit, Loop.depthLimit]

private theorem exists_of_depthLimit_le {node : Child} {n : Nat} (h : node.depthLimit ≤ n) :
    ∃ m, n = m + 1 := by
  refine ⟨n - 1, ?_⟩
  cases node with
  | element e =>
    rw [depthLimit_element] at h
    omega
  | loop l =>
    rw [depthLimit_loop] at h
    omega
  | _ =>
    simp only [Child.depthLimit] at h
    omega

private theorem visits_child (node : Child) {n : Nat} (hn : node.depthLimit ≤ n) :
    Visits σ n node := by
  induction node using Child.induction generalizing n with
  | element e ih =>
    obtain ⟨n, rfl⟩ := exists_of_depthLimit_le hn
    rw [depthLimit_element] at hn
    have hw (m : Nat) (hm : depthLimitOf e.children ≤ m) :
        Walks (visitNode (standardPasses (σ := σ)) m) e.children :=
      walks_of_visits fun node hnode => ih node hnode (Nat.le_trans (depthLimit_le_of_mem hnode) hm)
    intro c k mem hp hk
    have hlen := length_loopDirectives_le e.props
    rw [Lexical.child, Lexical.element_eq]
    exact visit_wrap hw _ rfl rfl (by omega) hp hk mem
  | text t =>
    obtain ⟨n, rfl⟩ := exists_of_depthLimit_le hn
    exact fun _ _ mem _ hk => visit_text hk t mem n
  | interpolation i =>
    obtain ⟨n, rfl⟩ := exists_of_depthLimit_le hn
    exact fun _ _ mem _ hk => visit_interpolation hk i mem n
  | loop l ih =>
    obtain ⟨n, rfl⟩ := exists_of_depthLimit_le hn
    rw [depthLimit_loop] at hn
    have hw : Walks (visitNode (standardPasses (σ := σ)) n) l.children :=
      walks_of_visits fun node hnode => ih node hnode (by
        have := depthLimit_le_of_mem hnode
        omega)
    exact fun _ _ mem hp hk => visit_loop hw hp hk mem
  | compound t =>
    obtain ⟨n, rfl⟩ := exists_of_depthLimit_le hn
    exact fun _ _ mem _ hk => visit_compound hk t mem n

/-- The walk over the children agrees with their lowering. -/
theorem walks_children (cs : List Child) :
    Walks (visitNode (standardPasses (σ := σ)) (depthLimitOf cs)) cs :=
  walks_of_visits fun node hnode => visits_child node (depthLimit_le_of_mem hnode)

/-- Lowering a template is the lexical recursion over its tree. -/
theorem lower_eq (o : LoweringOptions) (r : Root) : lower o r = Lexical.lower o r := by
  have hp : ({ options := o } : Context).scope.Positive := by
    intro e he
    cases he
  have h : WalkAgrees () (Lexical.children r.children { options := o })
      (walkList (visitNode standardPasses (depthLimitOf r.children)) .root 0 r.children
        { options := o } ()) :=
    walks_children r.children .root 0 { options := o } {} () hp rfl
  simp only [lower, lowerWith, walkChildren, Lexical.lower, Lexical.root, step_bind]
  generalize walkList _ _ _ _ _ _ = w at h ⊢
  cases hc : Lexical.children r.children { options := o } with
  | error f d =>
    rw [hc] at h
    cases h
    rfl
  | ok cs d =>
    rw [hc] at h
    obtain ⟨k, hk⟩ := h
    simp only
    rw [(registers_chooseCode _).run_at]
    cases chooseCode { r with children := mergeText cs } d <;> rfl

end TemplateCompiler.Lowering
