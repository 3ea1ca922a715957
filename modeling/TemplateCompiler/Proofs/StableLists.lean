import TemplateCompiler.Proofs.Constancy
import TemplateCompiler.Proofs.HeaderGrammar
import TemplateCompiler.Proofs.Rendering

/-! Lists that are marked as stable. The mark rests on how constant the source of the list is, and
the source of a list with the mark is printed as it stands in the template. -/
namespace TemplateCompiler.Lowering

open LowerM

variable {σ : Type}

private theorem headerOf_source {d : Directive} {parts : HeaderParts} (h : headerOf d = .ok parts) :
    (∃ exp before after, d.exp = some (.simple exp) ∧
      exp.content.toList = before ++ parts.source.content.toList ++ after) ∧
      parts.source.isStatic = false ∧ Text.isAllBlank parts.source.content = false := by
  unfold headerOf at h
  split at h
  · cases h
  · cases h
  · rename_i exp hexp
    obtain ⟨header, htext, -, rfl⟩ := parseHeader_ok_iff.mp h
    have hsource : (header.pieces.toParts exp).source.content.toList = header.source :=
      String.toList_ofList
    refine ⟨⟨exp, header.beforeSource, header.trailing, hexp, ?_⟩, rfl, ?_⟩
    · rw [hsource, ← htext, header.text_eq, List.append_assoc]
    · rw [Text.isAllBlank, hsource, List.all_eq_false]
      refine ⟨_, List.head_mem header.source_ne, Bool.eq_false_iff.mp ?_⟩
      exact header.source_unpadded.1 _ (List.head?_eq_some_head header.source_ne)

private theorem simple_source {o : LoweringOptions} {s : Scope} {d : Directive}
    {parts : HeaderParts}
    {source : Simple} (hparts : headerOf d = .ok parts) (ho : o.prefixIdentifiers = true)
    (h : Answer.simple o s parts.source = .ok source) :
    ∃ r, Expression.resolve? o s parts.source.content = some r ∧
      source.isStatic = false ∧ source.content = r.code ∧ source.constancy = r.constancy := by
  obtain ⟨-, hstatic, hblank⟩ := headerOf_source hparts
  rw [Answer.simple, Simple.processed?, hstatic, hblank, ho] at h
  simp only [Bool.or_self, Bool.false_eq_true, if_false, if_true] at h
  cases hr : Expression.resolve? o s parts.source.content with
  | none =>
    rw [hr] at h
    cases h
  | some r =>
    rw [hr] at h
    cases h
    exact ⟨r, rfl, rfl, rfl, rfl⟩

private theorem lower_ok {α : Type} {m : LowerM α} {v w : Visit σ} {a : α}
    (h : VisitM.lower m v = .ok a w) :
    ∃ c, m v.context = .ok a c ∧ w = { v with context := c } := by
  unfold VisitM.lower at h
  split at h
  · rename_i a' c hm
    cases h
    exact ⟨c, hm, rfl⟩
  · cases h

private theorem lowerLoops_ok {c : Context} {e : Element} {mem : σ} {d : Directive}
    {props : List ElementProp} {exit : Option (Exit σ)} {w : Visit σ}
    (hd : takeDirective? "for" e.props = some (d, props))
    (h : lowerLoops ⟨c, .element e, mem⟩ = .ok exit w) :
    ∃ parts source c', headerOf d = .ok parts ∧
      Answer.simple c.options c.scope parts.source = .ok source ∧
      exit = some (leaveLoop (loopOver { e with props } { parts with source }).aliasNames) ∧
      w = ⟨c', .loop (loopOver { e with props } { parts with source }), mem⟩ := by
  simp only [lowerLoops, step_bind, step_get, hd, VisitM.setNode, step_modify] at h
  cases hparts : headerOf d with
  | error r =>
    rw [hparts] at h
    cases h
  | ok parts =>
    rw [hparts] at h
    obtain ⟨source, u, hsource, h⟩ := step_bind_ok.mp h
    obtain ⟨c', hprocess, rfl⟩ := lower_ok hsource
    have hanswer := ((gives_simple parts.source).of_ok rfl rfl hprocess).1
    cases h
    exact ⟨parts, source, _, rfl, hanswer, rfl, rfl⟩

private theorem enterNode_removed {pass : Pass σ} {passes : List (Pass σ)} {exits : List (Exit σ)}
    {v w : Visit σ} {exit : Option (Exit σ)} (h : pass v = .ok exit w)
    (hr : w.context.cursor.removed = true) :
    enterNode (pass :: passes) exits v = .ok none w := by
  rw [enterNode, step_bind, h]
  simp only [step_bind, step_get, hr]
  rfl

private theorem enterNode_loop {c : Context} (hc : c.cursor.removed = false) (exits : List (Exit σ))
    (l : Loop) (mem : σ) :
    enterNode [processExpressions, buildElements standardDirectives, joinText] exits
      ⟨c, .loop l, mem⟩ = .ok (some (leaveText :: exits)) ⟨c, .loop l, mem⟩ := by
  refine (enterNode_cons rfl hc).trans ?_
  refine (enterNode_cons rfl hc).trans ?_
  exact enterNode_cons rfl hc

/-- The node is a loop over the source. Its code, if it has been made, is a list over the source,
and marked as stable exactly if the source is constant. -/
def IsListOf (source : Simple) (node : Child) : Prop :=
  ∃ l, node = .loop l ∧ l.source = .simple source ∧ ∀ list ∈ l.code,
    (∃ item, list.listItem? = some (.simple source, item)) ∧
      (list.patchFlag = some .stableFragment ↔ source.constancy ≠ .notConstant)

private theorem patchFlag_loopCode_iff {l : Loop} {source : Simple} (hl : l.source = .simple source)
    (body : VNode) : (loopCode l body).patchFlag = some .stableFragment ↔
      source.constancy ≠ .notConstant := by
  have hstable : isStableSource l.source = (source.constancy != .notConstant) := by
    rw [hl]
    rfl
  have hkeyed : PatchFlags.keyedFragment ≠ .stableFragment := by decide
  have hunkeyed : PatchFlags.unkeyedFragment ≠ .stableFragment := by decide
  rw [loopCode, hstable, ← bne_iff_ne]
  cases source.constancy != .notConstant with
  | true => simp
  | false => cases body.hasKey <;> simp [hkeyed, hunkeyed]

private theorem IsListOf.children {source : Simple} {l : Loop} (h : IsListOf source (.loop l))
    (cs : List Child) : IsListOf source (.loop { l with children := cs }) := by
  obtain ⟨l', hl, hsource, hcode⟩ := h
  cases hl
  exact ⟨_, rfl, hsource, hcode⟩

private theorem IsListOf.finishLoop {source : Simple} {l l' : Loop} {c c' : Context}
    (h : IsListOf source (.loop l)) (hl : finishLoop l c = .ok l' c') :
    IsListOf source (.loop l') := by
  obtain ⟨_, heq, hsource, -⟩ := h
  cases heq
  have hfinished := ((gives_finishedLoop l).of_ok rfl rfl hl).1
  unfold Answer.finishedLoop at hfinished
  split at hfinished
  · split at hfinished
    · cases hfinished
    · rename_i body e' _
      cases hfinished
      refine ⟨_, rfl, hsource, fun list hlist => ?_⟩
      cases hlist
      refine ⟨⟨body, ?_⟩, patchFlag_loopCode_iff hsource body⟩
      rw [listItem?_loopCode, hsource]
  · cases hfinished

private theorem descend_loop {visit : VisitM σ Unit} {source : Simple} {v w : Visit σ}
    (h : IsListOf source v.node) (hw : descend visit v = .ok () w) : IsListOf source w.node := by
  obtain ⟨c, node, mem⟩ := v
  obtain ⟨l, rfl, hl⟩ := h
  have hrun : walkWithin visit .loop l.children (fun cs => .loop { l with children := cs })
      ⟨c, .loop l, mem⟩ = .ok () w := hw
  unfold walkWithin at hrun
  dsimp only at hrun
  split at hrun
  · cases hrun
    exact IsListOf.children ⟨l, rfl, hl⟩ _
  · cases hrun

private theorem leave_listed {source : Simple} {names : List String} {v w : Visit σ}
    (h : IsListOf source v.node) (hw : leaveNode [leaveText, leaveLoop names] v = .ok () w) :
    IsListOf source w.node := by
  obtain ⟨c, node, mem⟩ := v
  obtain ⟨l, rfl, hl⟩ := h
  have hmerged := IsListOf.children ⟨l, rfl, hl⟩ (mergeText l.children)
  obtain ⟨_, _, htext, hw⟩ := step_bind_ok.mp hw
  cases htext
  obtain ⟨_, u, hloop, hw⟩ := step_bind_ok.mp hw
  cases hw
  obtain ⟨_, _, hnames, hloop⟩ := step_bind_ok.mp hloop
  cases hnames
  obtain ⟨_, _, hget, hloop⟩ := step_bind_ok.mp hloop
  cases hget
  obtain ⟨l', u', hlower, hloop⟩ := step_bind_ok.mp hloop
  obtain ⟨c', hfinish, -⟩ := lower_ok hlower
  cases hloop
  exact hmerged.finishLoop hfinish

private theorem keepingScope_ok {α : Type} {step : VisitM σ α} {v w : Visit σ} {a : α}
    (h : VisitM.keepingScope step v = .ok a w) : ∃ u, step v = .ok a u ∧ w.node = u.node := by
  unfold VisitM.keepingScope at h
  dsimp only at h
  split at h
  · rename_i b u hstep
    cases h
    exact ⟨u, hstep, rfl⟩
  · cases h

/-- Entering an element with a loop directive puts a loop in its place that is finished on the way
out, unless its removal has been asked for. -/
private theorem enter_listed {c : Context} {e : Element} {mem : σ} {d : Directive}
    {props : List ElementProp} {exits : Option (List (Exit σ))} {w : Visit σ}
    (hd : takeDirective? "for" e.props = some (d, props))
    (h : enterNode standardPasses [] ⟨c, .element e, mem⟩ = .ok exits w) :
    ∃ parts source, headerOf d = .ok parts ∧
      Answer.simple c.options c.scope parts.source = .ok source ∧ IsListOf source w.node ∧
      ∀ es ∈ exits, ∃ names, es = [leaveText, leaveLoop names] := by
  obtain ⟨exit, u, hloops, -⟩ := step_bind_ok.mp h
  obtain ⟨parts, source, c', hparts, hsource, rfl, rfl⟩ := lowerLoops_ok hd hloops
  refine ⟨parts, source, hparts, hsource, ?_⟩
  have hlist : IsListOf source (.loop (loopOver { e with props } { parts with source })) := by
    refine ⟨_, rfl, rfl, fun list hlist => ?_⟩
    cases hlist
  rw [standardPasses] at h
  cases hremoved : c'.cursor.removed with
  | true =>
    -- where removal was asked for already, the loop stays without code
    rw [enterNode_removed hloops hremoved] at h
    cases h
    refine ⟨hlist, fun es hes => ?_⟩
    cases hes
  | false =>
    rw [enterNode_cons hloops hremoved, enterNode_loop hremoved] at h
    cases h
    refine ⟨hlist, fun es hes => ?_⟩
    cases hes
    exact ⟨_, rfl⟩

/-- The visit of an element with a loop directive leaves a loop over the source of its header,
processed where the element stands. -/
private theorem visit_listed {limit : Nat} {v w : Visit σ} {e : Element} {d : Directive}
    {props : List ElementProp} (hv : v.node = .element e)
    (hd : takeDirective? "for" e.props = some (d, props))
    (h : visitNode standardPasses limit v = .ok () w) :
    ∃ parts source, headerOf d = .ok parts ∧
      Answer.simple v.context.options v.context.scope parts.source = .ok source ∧
      IsListOf source w.node := by
  obtain ⟨c, node, mem⟩ := v
  cases hv
  cases limit with
  | zero => cases h
  | succ limit =>
    rw [visitNode] at h
    obtain ⟨w', h, hnode⟩ := keepingScope_ok h
    rw [hnode]
    obtain ⟨_, _, hcurrent, h⟩ := step_bind_ok.mp h
    cases hcurrent
    obtain ⟨exits, u, henter, h⟩ := step_bind_ok.mp h
    obtain ⟨parts, source, hparts, hsource, hlist, hexits⟩ := enter_listed hd henter
    refine ⟨parts, source, hparts, hsource, ?_⟩
    cases exits with
    | none =>
      cases h
      exact hlist
    | some exits =>
      obtain ⟨names, rfl⟩ := hexits exits rfl
      obtain ⟨_, _, hget, h⟩ := step_bind_ok.mp h
      cases hget
      obtain ⟨_, u', hdescend, h⟩ := step_bind_ok.mp h
      obtain ⟨_, _, hcursor, h⟩ := step_bind_ok.mp h
      cases hcursor
      have hwalked := descend_loop hlist hdescend
      exact leave_listed (by exact hwalked) h

/-- The list that the visit of a node has left in its place. -/
def listOf? : EStateM.Result Fault (Visit σ) Unit → Option VNode
  | .ok _ ⟨_, .loop l, _⟩ => l.code
  | _ => none

private theorem listOf?_some {result : EStateM.Result Fault (Visit σ) Unit} {list : VNode}
    (h : listOf? result = some list) :
    ∃ w l, result = .ok () w ∧ w.node = .loop l ∧ l.code = some list := by
  unfold listOf? at h
  split at h
  · exact ⟨_, _, rfl, rfl, h⟩
  · cases h

private theorem print_code {s : Simple} (h : s.isStatic = false) :
    Print.expression (.simple s) = Print.push s.content := by
  rw [Print.expression, Print.simple, h]
  rfl

/-- How constant an expression is said to be is justified. If it is not said to change, it is left
as it is and calls nothing; it can be made a string exactly if none of its names refers to a
variable, that is if each is a member, a word of the language or a key; and it is said to use
`unref` exactly if a name is read through it. Hence, where names are resolved, an element with a
loop directive is made a list that is marked as stable exactly if its source is constant, and then
the source is printed as it stands in the directive. -/
theorem constancy_justified :
    (∀ (o : LoweringOptions) (scope : Scope) (source : String) (r : Expression.Resolved),
      Expression.resolve? o scope source = some r →
        (r.constancy ≠ .notConstant → r.code = source ∧ r.usesUnref = false) ∧
        (r.constancy = .canStringify ↔ ∀ n, .name n ∈ Expression.tokens source.toList →
          Expression.isMember? n.before = some true ∨ ReservedNames.isKeyword n.text = true ∨
            n.isKey = true) ∧
        (r.usesUnref = true ↔ ∃ n, .name n ∈ Expression.tokens source.toList ∧
          n.ReadsUnref o scope (Expression.arrowScopes source.toList))) ∧
    ∀ (σ : Type) (limit : Nat) (v : Visit σ) (e : Element) (d : Directive)
      (props : List ElementProp) (list : VNode), v.context.options.prefixIdentifiers = true →
      v.node = .element e → takeDirective? "for" e.props = some (d, props) →
      listOf? (visitNode standardPasses limit v) = some list →
      ∃ exp before parts after r, d.exp = some (.simple exp) ∧ headerOf d = .ok parts ∧
        exp.content.toList = before ++ parts.source.content.toList ++ after ∧
        Expression.resolve? v.context.options v.context.scope parts.source.content = some r ∧
        (list.patchFlag = some .stableFragment ↔ r.constancy ≠ .notConstant) ∧
        (list.patchFlag = some .stableFragment → ∃ source item,
          list.listItem? = some (source, item) ∧
            Print.expression source = Print.push parts.source.content) := by
  refine ⟨fun o scope source r h => ⟨Expression.unchanged_of_constant h, ?_,
    Expression.usesUnref_iff h⟩, ?_⟩
  · rw [Expression.constancy_eq_canStringify_iff h]
    simp only [Expression.isReference_eq_false_iff]
  · intro σ limit v e d props list ho hv hd hlist
    obtain ⟨w, l, hvisit, hw, hl⟩ := listOf?_some hlist
    obtain ⟨parts, source, hparts, hsource, l', hl', -, hcode⟩ := visit_listed hv hd hvisit
    rw [hw] at hl'
    cases hl'
    obtain ⟨⟨item, hitem⟩, hflag⟩ := hcode list hl
    obtain ⟨r, hr, hstatic, hcontent, hconstancy⟩ := simple_source hparts ho hsource
    obtain ⟨⟨exp, before, after, hexp, htext⟩, -⟩ := headerOf_source hparts
    rw [hconstancy] at hflag
    refine ⟨exp, before, parts, after, r, hexp, hparts, htext, hr, hflag, fun hstable => ?_⟩
    have hwritten := (Expression.unchanged_of_constant hr (hflag.mp hstable)).1
    exact ⟨_, item, hitem, by rw [print_code hstatic, hcontent, hwritten]⟩

/-- A loop over a list that is made of constants. -/
def constantLoop : Directive where
  name := "for"
  exp := some (.simple (.code "(n, i) of [1, 2].concat(Math.PI) " .stub))

def constantRow : Element where
  tag := "li"
  props := [.directive constantLoop]

theorem constantRow_stable :
    (∃ r, Expression.resolve? {} {} "[1, 2].concat(Math.PI)" = some r ∧
      r.constancy = .canSkipPatch ∧ r.code = "[1, 2].concat(Math.PI)" ∧ r.usesUnref = false) ∧
    ∃ list source item,
      listOf? (visitNode standardPasses 2 ⟨{}, .element constantRow, ()⟩) = some list ∧
      list.patchFlag = some .stableFragment ∧ list.listItem? = some (source, item) ∧
      Print.expression source = Print.push "[1, 2].concat(Math.PI)" := by
  constructor
  · have hcheck : (Expression.resolve? {} {} "[1, 2].concat(Math.PI)").any
        (fun r => r.constancy == .canSkipPatch) = true := by decide +kernel
    obtain ⟨r, hr, hconstancy⟩ := (Option.any_eq_true ..).mp hcheck
    have hskip : r.constancy = .canSkipPatch := beq_iff_eq.mp hconstancy
    have hconstant : r.constancy ≠ .notConstant := by
      rw [hskip]
      decide
    exact ⟨r, hr, hskip, (constancy_justified.1 {} {} _ r hr).1 hconstant⟩
  · have hcheck : (listOf? (visitNode standardPasses 2 ⟨{}, .element constantRow, ()⟩)).any
        (fun list => list.patchFlag == some .stableFragment) = true := by decide +kernel
    obtain ⟨list, hlist, hflag⟩ := (Option.any_eq_true ..).mp hcheck
    have hstable := beq_iff_eq.mp hflag
    obtain ⟨_, _, parts, _, _, -, hparts, -, -, -, hprints⟩ :=
      constancy_justified.2 Unit 2 ⟨{}, .element constantRow, ()⟩ constantRow constantLoop [] list
        rfl rfl rfl hlist
    obtain ⟨source, item, hitem, hsource⟩ := hprints hstable
    have hwritten : (headerOf constantLoop).toOption.map (·.source.content) =
        some "[1, 2].concat(Math.PI)" := by decide +kernel
    rw [hparts] at hwritten
    exact ⟨list, source, item, hlist, hstable, hitem, Option.some.inj hwritten ▸ hsource⟩

end TemplateCompiler.Lowering
