import TemplateCompiler.Proofs.Registration

/-! The order of a walk, with any passes. Every child is visited once, from left to right; a child
is taken out if one of its own steps asks for that, whatever happens below it; and what the passes
left to do is done in reverse, at the place at which the child was entered. -/
namespace TemplateCompiler

variable {σ α : Type}

namespace Visit

/-- The place of the node: the kind of its parent and how many siblings have been kept before it. -/
abbrev place (v : Visit σ) : Option NodeKind × Nat :=
  (v.context.cursor.parent, v.context.cursor.index)

/-- Whether the node has asked to be removed. -/
abbrev removed (v : Visit σ) : Bool := v.context.cursor.removed

end Visit

/-- The step leaves the walk where it stands. It may put another node into the slot, ask for removal
and do anything to the rest of the state, but it does not write the place of the node and does not
take a request for removal back. -/
def VisitM.Stays (step : VisitM σ α) : Prop :=
  ∀ v a w, step v = .ok a w → w.place = v.place ∧ (v.removed = true → w.removed = true)

/-- The pass stays in place, on the way in and on the way out. -/
structure Pass.Stays (pass : Pass σ) : Prop where
  entry : VisitM.Stays pass
  exit : ∀ v exit w, pass v = .ok (some exit) w → VisitM.Stays exit

/-- A call of a step that finished. -/
structure StepCall (σ α : Type) where
  step : VisitM σ α
  start : Visit σ
  result : α
  stop : Visit σ
  ran : step start = .ok result stop

/-- Whether the call asked for removal. -/
def StepCall.requests (k : StepCall σ α) : Bool := !k.start.removed && k.stop.removed

/-- The calls, one after the other, lead from one state to the other. -/
inductive Calls : Visit σ → List (StepCall σ α) → Visit σ → Prop
  | nil (v : Visit σ) : Calls v [] v
  | cons (k : StepCall σ α) {ks : List (StepCall σ α)} {w : Visit σ} (h : Calls k.stop ks w) :
      Calls k.start (k :: ks) w

private theorem StepCall.removed_stop {k : StepCall σ α} (h : k.step.Stays) :
    k.stop.removed = (k.start.removed || k.requests) := by
  have hkeep := (h _ _ _ k.ran).2
  rw [requests]
  cases hstart : k.start.removed with
  | true => exact hkeep hstart
  | false => rfl

/-- Calls that stay in place all see the same place, and a removal is asked for in the end if it was
before or one of them asks for it. -/
private theorem Calls.stays {v w : Visit σ} {ks : List (StepCall σ α)} (h : Calls v ks w)
    (hks : ∀ k ∈ ks, k.step.Stays) :
    (∀ k ∈ ks, k.start.place = v.place) ∧ w.place = v.place ∧
      w.removed = (v.removed || ks.any StepCall.requests) := by
  induction h with
  | nil v => simp
  | cons k h ih =>
    obtain ⟨hk, hks⟩ := List.forall_mem_cons.mp hks
    obtain ⟨hsee, hplace, hremoved⟩ := ih hks
    have hstop := (hk _ _ _ k.ran).1
    rw [hstop] at hsee hplace
    refine ⟨List.forall_mem_cons.mpr ⟨rfl, hsee⟩, hplace, ?_⟩
    rw [hremoved, StepCall.removed_stop hk, List.any_cons, Bool.or_assoc]

/-- The calls that the visit of one node makes itself, not those made below it. -/
structure Stay (σ : Type) where
  start : Visit σ
  entries : List (StepCall σ (Option (Exit σ)))
  exits : List (StepCall σ Unit)
  stop : Visit σ

namespace Stay

/-- Whether the node is kept in its list. -/
def kept (s : Stay σ) : Bool := !s.stop.removed

/-- The state that the next sibling finds: the names declared in the node are gone. -/
def left (s : Stay σ) : Context :=
  { s.stop.context with scope := s.stop.context.scope.restore s.start.context.scope.mark }

/-- The stay goes by the passes. Each is called once, in order, up to the first that asks for
removal. If none does, the children are walked, and then, back at the place of the node, what the
passes left to do is done, the latest first. -/
inductive Follows (passes : List (Pass σ)) (visit : VisitM σ Unit) : Stay σ → Prop
  | dropped {v w : Visit σ} {entries : List (StepCall σ (Option (Exit σ)))}
      (hsteps : entries.map StepCall.step <+: passes) (hcalls : Calls v entries w)
      (hfirst : ∀ k ∈ entries.dropLast, k.requests = false) (hremoved : w.removed = true) :
      Follows passes visit ⟨v, entries, [], w⟩
  | finished {v u below w : Visit σ} {entries : List (StepCall σ (Option (Exit σ)))}
      {exits : List (StepCall σ Unit)}
      (hsteps : entries.map StepCall.step = passes) (hcalls : Calls v entries u)
      (hkept : u.removed = false)
      (hbelow : (do descend visit; restoreCursor u.place.1 u.place.2) u = .ok () below)
      (hexits : exits.map StepCall.step = (entries.filterMap StepCall.result).reverse)
      (hleave : Calls below exits w) :
      Follows passes visit ⟨v, entries, exits, w⟩

end Stay

private theorem enterNode_calls {passes : List (Pass σ)} {exits : List (Exit σ)} {v w : Visit σ}
    {r : Option (List (Exit σ))} (hv : v.removed = false)
    (h : enterNode passes exits v = .ok r w) :
    ∃ entries : List (StepCall σ (Option (Exit σ))), entries.map StepCall.step <+: passes ∧
      Calls v entries w ∧ (∀ k ∈ entries.dropLast, k.requests = false) ∧
      match r with
      | none => w.removed = true
      | some exits' => entries.map StepCall.step = passes ∧ w.removed = false ∧
          exits' = (entries.filterMap StepCall.result).reverse ++ exits := by
  induction passes generalizing exits v with
  | nil =>
    cases h
    exact ⟨[], List.prefix_refl _, .nil _, by simp, rfl, hv, rfl⟩
  | cons pass passes ih =>
    rw [enterNode] at h
    obtain ⟨exit, u, hpass, h⟩ := step_bind_ok.mp h
    let k : StepCall σ (Option (Exit σ)) := ⟨pass, v, exit, u, hpass⟩
    rw [step_bind, step_get] at h
    simp only at h
    split at h
    · rename_i hu
      cases h
      exact ⟨[k], List.prefix_append [pass] passes, .cons k (.nil _), by simp, hu⟩
    · rename_i hu
      rw [Bool.not_eq_true] at hu
      obtain ⟨entries, hsteps, hcalls, hfirst, hr⟩ := ih hu h
      have hk : k.requests = false := by simp [StepCall.requests, k, Visit.removed, hu]
      refine ⟨k :: entries, (List.prefix_cons_inj pass).mpr hsteps, .cons k hcalls, ?_, ?_⟩
      · intro j hj
        cases entries with
        | nil => cases hj
        | cons e es =>
          rw [List.dropLast_cons_cons] at hj
          rcases List.mem_cons.mp hj with rfl | hj
          · exact hk
          · exact hfirst j hj
      · cases r with
        | none => exact hr
        | some exits' =>
          obtain ⟨hall, hw, rfl⟩ := hr
          refine ⟨by rw [List.map_cons, hall], hw, ?_⟩
          cases exit <;> simp [k]

private theorem leaveNode_calls {exits : List (Exit σ)} {v w : Visit σ}
    (h : leaveNode exits v = .ok () w) :
    ∃ calls : List (StepCall σ Unit), calls.map StepCall.step = exits ∧ Calls v calls w := by
  induction exits generalizing v with
  | nil =>
    cases h
    exact ⟨[], rfl, .nil _⟩
  | cons exit exits ih =>
    rw [leaveNode] at h
    obtain ⟨⟨⟩, u, hexit, h⟩ := step_bind_ok.mp h
    obtain ⟨calls, rfl, hcalls⟩ := ih h
    let k : StepCall σ Unit := ⟨exit, v, (), u, hexit⟩
    exact ⟨k :: calls, rfl, .cons k hcalls⟩

private theorem visitNode_stay {passes : List (Pass σ)} {limit : Nat} {v u : Visit σ}
    (hv : v.removed = false) (h : visitNode passes limit v = .ok () u) :
    ∃ s : Stay σ, s.Follows passes (visitNode passes (limit - 1)) ∧
      s.start = { v with context := v.context.setCurrent v.node.kind } ∧
      u = { s.stop with context := s.left } := by
  cases limit with
  | zero => cases h
  | succ limit =>
    rw [visitNode, VisitM.keepingScope] at h
    simp only at h
    split at h
    · rename_i hw
      cases h
      obtain ⟨⟨⟩, v', hv', hw⟩ := step_bind_ok.mp hw
      cases hv'
      obtain ⟨r, u, henter, hw⟩ := step_bind_ok.mp hw
      obtain ⟨entries, hsteps, hcalls, hfirst, hr⟩ := enterNode_calls (by exact hv) henter
      cases r with
      | none =>
        cases hw
        exact ⟨_, .dropped hsteps hcalls hfirst hr, rfl, rfl⟩
      | some exits =>
        obtain ⟨hall, hkept, rfl⟩ := hr
        obtain ⟨_, _, hget, hw⟩ := step_bind_ok.mp hw
        cases hget
        obtain ⟨⟨⟩, below, hbelow, hw⟩ := step_bind_ok.mp hw
        obtain ⟨⟨⟩, below', hplace, hw⟩ := step_bind_ok.mp hw
        obtain ⟨calls, hexits, hleave⟩ := leaveNode_calls hw
        rw [List.append_nil] at hexits
        have hdown : (do
            descend (visitNode passes limit)
            restoreCursor u.place.1 u.place.2) u = .ok () below' :=
          step_bind_ok.mpr ⟨(), below, hbelow, hplace⟩
        exact ⟨_, .finished hall hcalls hkept hdown hexits hleave, rfl, rfl⟩
    · cases h

/-- The state in which the walk visits a child. -/
def Context.visiting (c : Context) (parent : NodeKind) (index : Nat) : Context :=
  c.at { c.cursor with parent := some parent, index, removed := false }

/-- A walk that gets through a list visits the first child, and goes through the others from where
the visit ended. The child is counted and put before them unless it has asked to be removed. -/
private theorem walkList_cons_ok {visit : VisitM σ Unit} {parent : NodeKind} {index : Nat}
    {child : Child}
    {rest : List Child} {c : Context} {mem : σ} {w : Walked σ}
    (hw : walkList visit parent index (child :: rest) c mem = w) (h : w.fault = none) :
    ∃ v w', visit ⟨c.visiting parent index, child, mem⟩ = .ok () v ∧
      walkList visit parent (index + if v.removed then 0 else 1) rest
        (v.context.at { v.context.cursor with removed := false }) v.memory = w' ∧
      w = { w' with children := (if v.removed then [] else [v.node]) ++ w'.children } := by
  have hvisiting : visit ⟨c.visiting parent index, child, mem⟩ = visit
      ⟨{ c with cursor := { c.cursor with parent := some parent, index, removed := false } },
        child, mem⟩ := rfl
  subst hw
  rw [walkList] at h ⊢
  rw [hvisiting]
  simp only at h ⊢
  generalize visit _ = r at h ⊢
  cases r with
  | error f v => cases h
  | ok _ v =>
    refine ⟨v, _, rfl, rfl, ?_⟩
    cases hr : v.removed with
    | true => simp [hr]
    | false =>
      have hat : v.context.at { v.context.cursor with removed := false } = v.context := by
        rw [← hr]
      simp [hr, hat]

private theorem walkList_not_removed {visit : VisitM σ Unit} {parent : NodeKind} {index : Nat}
    {cs : List Child} {c : Context} {mem : σ} {w : Walked σ} (hc : c.cursor.removed = false)
    (hw : walkList visit parent index cs c mem = w) (h : w.fault = none) :
    w.context.cursor.removed = false := by
  induction cs generalizing index c mem w with
  | nil =>
    subst hw
    exact hc
  | cons child rest ih =>
    obtain ⟨v, w', -, hw', rfl⟩ := walkList_cons_ok hw h
    exact ih (w := w') rfl hw' h

private theorem walkWithin_not_removed {visit : VisitM σ Unit} {kind : NodeKind} {cs : List Child}
    {rebuild : List Child → Child} {v w : Visit σ} (hv : v.removed = false)
    (h : walkWithin visit kind cs rebuild v = .ok () w) : w.removed = false := by
  rw [walkWithin] at h
  cases hf : (walkList visit kind 0 cs v.context v.memory).fault with
  | none =>
    simp only [hf] at h
    cases h
    exact walkList_not_removed hv rfl hf
  | some f =>
    simp only [hf] at h
    cases h

private theorem descend_not_removed {visit : VisitM σ Unit} {v w : Visit σ} (hv : v.removed = false)
    (h : descend visit v = .ok () w) : w.removed = false := by
  obtain ⟨c, node, mem⟩ := v
  rw [descend] at h
  obtain ⟨u, u', hu, h⟩ := step_bind_ok.mp h
  cases hu
  cases node with
  | element e => exact walkWithin_not_removed hv h
  | loop l => exact walkWithin_not_removed hv h
  | _ =>
    cases h
    exact hv

namespace Stay

variable {passes : List (Pass σ)} {visit : VisitM σ Unit} {s : Stay σ}

private theorem Follows.mem_passes (h : s.Follows passes visit) {k : StepCall σ (Option (Exit σ))}
    (hk : k ∈ s.entries) : k.step ∈ passes := by
  have hstep := List.mem_map_of_mem (f := StepCall.step) hk
  cases h with
  | dropped hsteps => exact hsteps.subset hstep
  | finished hsteps => exact hsteps ▸ hstep

private theorem Follows.mem_exits (h : s.Follows passes visit) {k : StepCall σ Unit}
    (hk : k ∈ s.exits) :
    ∃ e ∈ s.entries, e.result = some k.step := by
  cases h with
  | dropped => cases hk
  | finished _ _ _ _ hexits =>
    have hstep := List.mem_map_of_mem (f := StepCall.step) hk
    rw [hexits, List.mem_reverse, List.mem_filterMap] at hstep
    exact hstep

/-- All calls of a stay see the place at which it starts, and the node is kept unless one of them
asks for removal. -/
private theorem Follows.calls (h : s.Follows passes visit)
    (hpasses : ∀ pass ∈ passes, Pass.Stays pass)
    (hs : s.start.removed = false) :
    (∀ k ∈ s.entries, k.start.place = s.start.place) ∧
    (∀ k ∈ s.exits, k.start.place = s.start.place) ∧
    s.kept = !(s.entries.any StepCall.requests || s.exits.any StepCall.requests) := by
  have hentries : ∀ k ∈ s.entries, k.step.Stays := fun k hk =>
    (hpasses k.step (h.mem_passes hk)).entry
  have hexits : ∀ k ∈ s.exits, k.step.Stays := by
    intro k hk
    obtain ⟨e, he, hresult⟩ := h.mem_exits hk
    exact (hpasses e.step (h.mem_passes he)).exit e.start k.step e.stop (hresult ▸ e.ran)
  cases h with
  | dropped hsteps hcalls hfirst hremoved =>
    obtain ⟨hsee, -, hr⟩ := hcalls.stays hentries
    rw [hs, Bool.false_or] at hr
    exact ⟨hsee, by simp, by rw [kept, hr, List.any_nil, Bool.or_false]⟩
  | finished hsteps hcalls hkept hbelow _ hleave =>
    obtain ⟨hsee, hplace, hr⟩ := hcalls.stays hentries
    rw [hs, Bool.false_or, hkept] at hr
    -- a request that was made below the node has been served by then
    obtain ⟨⟨⟩, x, hdescend, hback⟩ := step_bind_ok.mp hbelow
    have hx := descend_not_removed hkept hdescend
    cases hback
    obtain ⟨hsee', -, hr'⟩ := hleave.stays hexits
    refine ⟨hsee, fun k hk => (hsee' k hk).trans hplace, ?_⟩
    rw [kept, hr', ← hr, Bool.false_or]
    exact congrArg (fun b => !(b || _)) hx

end Stay

/-- The stays come one after the other: each starts from what the one before has left, but that the
walk has moved its cursor. -/
def Threads : Context → σ → List (Stay σ) → Context → σ → Prop
  | c, mem, [], d, mem' => c.at d.cursor = d ∧ mem = mem'
  | c, mem, s :: stays, d, mem' =>
    s.start.context.at c.cursor = c ∧ s.start.memory = mem ∧
      Threads s.left s.stop.memory stays d mem'

private theorem Threads.of_at {c d : Context} {k : Cursor} {mem mem' : σ} {stays : List (Stay σ)}
    (h : Threads (c.at k) mem stays d mem') : Threads c mem stays d mem' := by
  cases stays with
  | nil => exact ⟨h.1, h.2⟩
  | cons s stays =>
    obtain ⟨hc, hmem, h⟩ := h
    exact ⟨congrArg (·.at c.cursor) hc, hmem, h⟩

/-- The stays go by the passes, each at the place that counts those kept before it. -/
def Stationed (passes : List (Pass σ)) (visit : VisitM σ Unit) (parent : NodeKind) (index : Nat)
    (stays : List (Stay σ)) : Prop :=
  ∀ before s after, stays = before ++ s :: after →
    s.start.place = (some parent, index + before.countP Stay.kept) ∧
    s.start.removed = false ∧ s.Follows passes visit

private theorem Stationed.cons {passes : List (Pass σ)} {visit : VisitM σ Unit} {parent : NodeKind}
    {index : Nat} {s : Stay σ} {stays : List (Stay σ)}
    (hplace : s.start.place = (some parent, index)) (hremoved : s.start.removed = false)
    (hfollows : s.Follows passes visit)
    (h : Stationed passes visit parent (index + if s.stop.removed then 0 else 1) stays) :
    Stationed passes visit parent index (s :: stays) := by
  intro before t after heq
  cases before with
  | nil =>
    obtain ⟨rfl, -⟩ := List.cons.inj heq
    exact ⟨hplace, hremoved, hfollows⟩
  | cons u before =>
    obtain ⟨rfl, htail⟩ := List.cons.inj heq
    obtain ⟨hplace', hrest⟩ := h before t after htail
    refine ⟨?_, hrest⟩
    rw [hplace', List.countP_cons, Stay.kept]
    cases s.stop.removed with
    | true => simp
    | false =>
      rw [if_neg Bool.false_ne_true, Bool.not_false, if_pos rfl, Nat.add_assoc, Nat.add_comm 1]

private theorem walkList_stays {passes : List (Pass σ)} {limit index : Nat} {parent : NodeKind}
    {cs : List Child} {c : Context} {mem : σ} {w : Walked σ}
    (hw : walkList (visitNode passes limit) parent index cs c mem = w) (h : w.fault = none) :
    ∃ stays : List (Stay σ), Threads c mem stays w.context w.memory ∧
      stays.map (·.start.node) = cs ∧
      Stationed passes (visitNode passes (limit - 1)) parent index stays ∧
      w.children = (stays.filter Stay.kept).map (·.stop.node) := by
  induction cs generalizing index c mem w with
  | nil =>
    subst hw
    exact ⟨[], ⟨rfl, rfl⟩, rfl, by simp [Stationed], rfl⟩
  | cons child rest ih =>
    obtain ⟨v, w', hvisit, hw', rfl⟩ := walkList_cons_ok hw h
    obtain ⟨s, hfollows, hstart, rfl⟩ := visitNode_stay rfl hvisit
    obtain ⟨stays, hthreads, hnodes, hstationed, hchildren⟩ := ih hw' h
    refine ⟨s :: stays, ⟨?_, ?_, hthreads.of_at⟩, ?_, hstationed.cons ?_ ?_ hfollows, ?_⟩
    · rw [hstart]
      rfl
    · rw [hstart]
    · rw [List.map_cons, hnodes, hstart]
    · rw [hstart]
      rfl
    · rw [hstart]
      rfl
    · rw [hchildren, List.filter_cons, Stay.kept]
      change (if s.stop.removed then _ else _) ++ _ = _
      cases s.stop.removed <;> rfl

/-- A walk over a list, to any depth and with any passes that stay in place, that gets through. Each
child has one stay, which starts with the child in the slot; the stays come in the order of the
children, one after the other, each at the place that counts the siblings kept before it. What is
left of the list are the nodes with which the stays end, without those of the children that asked
for removal in a step of their own. All steps of a stay see the same place, and what the passes left
to do is done in reverse. -/
theorem walkList_visits_once {passes : List (Pass σ)} (hpasses : ∀ pass ∈ passes, Pass.Stays pass)
    {limit : Nat} {parent : NodeKind} {cs : List Child} {c : Context} {mem : σ} {w : Walked σ}
    (hw : walkList (visitNode passes limit) parent 0 cs c mem = w) (h : w.fault = none) :
    ∃ stays : List (Stay σ), Threads c mem stays w.context w.memory ∧
      stays.map (·.start.node) = cs ∧
      (∀ before s after, stays = before ++ s :: after →
        s.start.place = (some parent, before.countP Stay.kept)) ∧
      (∀ s ∈ stays, s.Follows passes (visitNode passes (limit - 1)) ∧
        (∀ k ∈ s.entries, k.start.place = s.start.place) ∧
        (∀ k ∈ s.exits, k.start.place = s.start.place) ∧
        s.kept = !(s.entries.any StepCall.requests || s.exits.any StepCall.requests)) ∧
      w.children = (stays.filter Stay.kept).map (·.stop.node) := by
  obtain ⟨stays, hthreads, hnodes, hstationed, hchildren⟩ := walkList_stays hw h
  refine ⟨stays, hthreads, hnodes, ?_, ?_, hchildren⟩
  · intro before s after heq
    rw [(hstationed before s after heq).1, Nat.zero_add]
  · intro s hs
    obtain ⟨before, after, heq⟩ := List.append_of_mem hs
    obtain ⟨-, hremoved, hfollows⟩ := hstationed before s after heq
    exact ⟨hfollows, hfollows.calls hpasses hremoved⟩

def noteIndex : VisitM (List Nat) Unit :=
  modify fun v => { v with memory := v.memory ++ [v.context.cursor.index] }

/-- Asks for the removal of the node if the test says so. -/
def dropIf (test : Bool) : VisitM (List Nat) Unit :=
  VisitM.modifyContext fun c => if test then c.requestRemoval else c

/-- Notes the index of every node, on the way in and on the way out. -/
def noteIndices : VisitM (List Nat) (Option (Exit (List Nat))) := do
  noteIndex
  return some noteIndex

/-- Whether the node is this text. -/
def Child.isText (content : String) : Child → Bool
  | .text t => t.content == content
  | _ => false

/-- Removes texts: `drop` on the way in, `late` on the way out. -/
def dropTexts : VisitM (List Nat) (Option (Exit (List Nat))) := do
  let node := (← get).node
  dropIf (node.isText "drop")
  return some (dropIf (node.isText "late"))

private theorem stays_noteIndex : noteIndex.Stays := by
  intro v a w h
  cases h
  exact ⟨rfl, id⟩

private theorem stays_dropIf (test : Bool) : (dropIf test).Stays := by
  intro v a w h
  cases h
  cases test with
  | true => exact ⟨rfl, fun _ => rfl⟩
  | false => exact ⟨rfl, id⟩

private theorem stays_noteIndices : Pass.Stays noteIndices where
  entry := by
    intro v a w h
    cases h
    exact ⟨rfl, id⟩
  exit := by
    intro v exit w h
    cases h
    exact stays_noteIndex

private theorem stays_dropTexts : Pass.Stays dropTexts where
  entry v _ _ h := by
    cases h
    exact stays_dropIf (v.node.isText "drop") v _ _ rfl
  exit := by
    intro v exit w h
    cases h
    exact stays_dropIf _

/-- Texts that are dropped early and late, beside a list in which one is. -/
def markedTexts : List Child :=
  [.text { content := "drop" }, .text { content := "late" },
   .element { tag := "ul", children := [.text { content := "a" }, .text { content := "late" }] },
   .text { content := "b" }]

theorem markedTexts_visits_once :
    let w := walkChildren [noteIndices, dropTexts] .root markedTexts {} []
    w.fault = none ∧ w.memory = [0, 0, 0, 0, 0, 0, 1, 1, 0, 1, 1] ∧
      ∃ stays : List (Stay (List Nat)), stays.map (·.start.node) = markedTexts ∧
        w.children = (stays.filter Stay.kept).map (·.stop.node) ∧
        w.children.map Child.kind = [.element, .text] := by
  intro w
  have hfault : w.fault = none := by decide +kernel
  have hpasses : ∀ pass ∈ [noteIndices, dropTexts], Pass.Stays pass := by
    simp [stays_noteIndices, stays_dropTexts]
  obtain ⟨stays, -, hnodes, -, -, hchildren⟩ := walkList_visits_once hpasses rfl hfault
  exact ⟨hfault, by decide +kernel, stays, hnodes, hchildren, by decide +kernel⟩

end TemplateCompiler
