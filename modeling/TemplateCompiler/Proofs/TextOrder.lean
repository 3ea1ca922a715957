import TemplateCompiler.Proofs.PlacedElements

/-! The texts and interpolations of a template reach its code in document order. None is lost,
repeated or changed, but that the expressions of interpolations are processed. -/
namespace TemplateCompiler

/-- The texts and interpolations that are shown by strokes. -/
def shown (xs : List Stroke) : List TextChild := xs.filterMap Stroke.shown?

@[simp] theorem shown_nil : shown [] = [] := rfl

@[simp] theorem shown_append (xs ys : List Stroke) : shown (xs ++ ys) = shown xs ++ shown ys :=
  List.filterMap_append

@[simp] theorem shown_cons (x : Stroke) (xs : List Stroke) :
    shown (x :: xs) = x.shown?.toList ++ shown xs := by
  cases h : x.shown? <;> simp [shown, h]

private theorem shown_eq_nil {xs : List Stroke} : shown xs = [] ↔ Fine (·.shown? = none) xs :=
  List.filterMap_eq_nil_iff

@[simp] theorem shown_separator (isFirst : Bool) : shown (separator isFirst) = [] := by
  cases isFirst <;> rfl

@[simp] theorem shown_simple (e : Simple) : shown e.strokes = [] := by
  rw [Simple.strokes]
  split <;> rfl

/-- What a child shows in a list. -/
def Child.shown (c : Child) : List TextChild := TemplateCompiler.shown (c.listedStrokes true)

private theorem shown_childList_of {cs : List Child}
    (h : ∀ c ∈ cs, ∀ isFirst, shown (c.listedStrokes isFirst) = c.shown) (isFirst : Bool) :
    shown (childListStrokes isFirst cs) = cs.flatMap Child.shown := by
  induction cs generalizing isFirst with
  | nil => simp [childListStrokes]
  | cons c cs ih =>
    obtain ⟨hc, hcs⟩ := List.forall_mem_cons.mp h
    rw [childListStrokes, shown_append, hc, ih hcs, List.flatMap_cons]

private theorem Child.shown_listed (c : Child) (isFirst : Bool) :
    TemplateCompiler.shown (c.listedStrokes isFirst) = c.shown := by
  induction c using Child.induction generalizing isFirst with
  | element e ih =>
    obtain ⟨tag, kind, props, cs, isSelfClosing, span, code⟩ := e
    rw [Child.shown, Child.listedStrokes, Child.listedStrokes]
    cases code with
    | some c => simp [Element.listedStrokes]
    | none =>
      simp only [Element.listedStrokes]
      split
      · rw [shown_childList_of ih, shown_childList_of ih]
      · simp
  | _ => simp [Child.shown, Child.listedStrokes]

private theorem shown_childList (cs : List Child) (isFirst : Bool) :
    shown (childListStrokes isFirst cs) = cs.flatMap Child.shown :=
  shown_childList_of (fun c _ => c.shown_listed) isFirst

private theorem Child.shown_text {c : Child} {t : TextChild} (h : c.textChild? = some t) :
    c.shown = TemplateCompiler.shown t.strokes := by
  simp [Child.shown, Lowering.listedStrokes_text h]

private theorem Child.shown_vnode {e : Element} {v : VNode} (h : e.code = some (.vnode v)) :
    (Child.element e).shown = TemplateCompiler.shown v.strokes := by
  simp [Child.shown, Lowering.listedStrokes_vnode h]

private theorem Child.shown_template {e : Element} (hk : e.kind = .template) (hc : e.code = none) :
    (Child.element e).shown = e.children.flatMap Child.shown := by
  rw [Child.shown, Lowering.listedStrokes_template hk hc, shown_childList]

private theorem Child.shown_loop {l : Loop} {v : VNode} (h : l.code = some v) :
    (Child.loop l).shown = TemplateCompiler.shown v.strokes := by
  simp [Child.shown, Lowering.listedStrokes_loop h]

namespace Lowering

open LowerM

private theorem shown_joined (ts : List TextChild) :
    shown (partsStrokes ((ts.map partOfText).intersperse plus)) =
      ts.flatMap fun t => shown t.strokes := by
  have hpart (t : TextChild) : shown (partOfText t).strokes = shown t.strokes := by
    cases t <;> simp [partOfText, Part.strokes, TextChild.strokes]
  induction ts with
  | nil => simp [partsStrokes]
  | cons t ts ih =>
    cases ts with
    | nil => simp [partsStrokes, hpart]
    | cons t' ts =>
      rw [List.map_cons] at ih
      simp [partsStrokes, hpart, plus, Part.strokes, Stroke.shown?] at ih ⊢
      exact ih

private theorem shown_joinRun (run : List TextChild) :
    (joinRun run).flatMap Child.shown = run.flatMap fun t => shown t.strokes := by
  have hjoined := shown_joined run
  unfold joinRun
  split
  · rfl
  · rename_i t
    have ht : (childOfText t).textChild? = some t := by cases t <;> rfl
    simp [Child.shown_text ht]
  · rw [List.flatMap_singleton, Child.shown_text rfl, TextChild.strokes, Compound.strokes]
    exact hjoined

private theorem shown_mergeText (cs : List Child) :
    (mergeText cs).flatMap Child.shown = cs.flatMap Child.shown := by
  have hfrom (run : List TextChild) : (mergeTextFrom run cs).flatMap Child.shown =
      (run.flatMap fun t => shown t.strokes) ++ cs.flatMap Child.shown := by
    induction cs generalizing run with
    | nil => simp [mergeTextFrom, shown_joinRun]
    | cons c cs ih =>
      rw [mergeTextFrom]
      split
      · rename_i t ht
        simp [ih, Child.shown_text ht]
      · simp [ih, shown_joinRun]
  unfold mergeText
  split
  · exact hfrom []
  · rfl

private theorem shown_vnode {v : VNode} (hp : ∀ p ∈ v.props, shown p.strokes = [])
    (hd : ∀ d ∈ v.directives, shown d.strokes = []) :
    shown v.strokes = v.children.toList.flatMap fun cs => shown cs.strokes := by
  have htag : shown v.tag.strokes = [] := by
    cases v.tag <;> simp [VNodeTag.strokes, Stroke.shown?]
  obtain ⟨tag, props, children, _, directives, _, _, _, _⟩ := v
  rw [VNode.strokes.eq_def]
  cases props with
  | none =>
    cases children <;> cases directives <;>
      simp_all [Stroke.shown?]
  | some p =>
    cases children <;> cases directives <;>
      simp_all [Stroke.shown?]

private theorem shown_many (cs : List Child) :
    shown (VNodeChildren.many cs).strokes = cs.flatMap Child.shown := by
  simp [VNodeChildren.strokes, shown_childList, Stroke.shown?]

private theorem shown_childrenCode (cs : List Child) :
    ((childrenCode cs).toList.flatMap fun code => shown code.strokes) = cs.flatMap Child.shown := by
  unfold childrenCode
  split
  · rfl
  · rename_i c
    split
    · rename_i t ht
      simp [VNodeChildren.strokes, Child.shown_text ht]
    · simp [shown_many]
  · simp [shown_many]

/-- Nothing is asked of strokes. What is left of `Emitted` says that the child has been lowered, and
that the expressions of template elements are simple. -/
abbrev Lowers : Child → Prop := Emitted (fun _ => True) false

private theorem admits_unshown (hs : HelperSet) : Admits (·.shown? = none) hs false :=
  ⟨fun _ => rfl, fun _ => rfl, fun _ _ => rfl, rfl, by simp, by simp⟩

private theorem shown_bodyFragment {e : Element}
    (hp : ExpressionsKnown (fun _ => True) false e.props) :
    shown (bodyFragment e).strokes = e.children.flatMap Child.shown := by
  have hp' : ExpressionsKnown (·.shown? = none) false e.props := by
    intro d hd hn x hx
    have hknown := hp d hd hn x hx
    cases x with
    | simple x => exact fun _ => rfl
    | compound c => exact hknown
  have hprops : ∀ p ∈ (bodyFragment e).props, shown p.strokes = [] :=
    fun p hp => shown_eq_nil.mpr (bodyProps_fine (admits_unshown .empty) hp' p hp)
  rw [shown_vnode hprops (by simp [bodyFragment])]
  simp [bodyFragment, shown_many]

private theorem ItemNode.shown {e : Element} {v : VNode} (he : Lowers (.element e))
    (h : ItemNode e v) : TemplateCompiler.shown v.strokes = (Child.element e).shown := by
  cases h with
  | own _ hcode => rw [Child.shown_vnode hcode]
  | only hk hcode hchildren hchild =>
    rw [Child.shown_template hk hcode, hchildren, List.flatMap_singleton, Child.shown_vnode hchild]
  | fragment hk hcode _ =>
    rw [Child.shown_template hk hcode]
    cases he with
    | shown ht => cases ht
    | element hk' => exact absurd hk hk'
    | template _ _ hp _ => exact shown_bodyFragment hp

private theorem shown_loopCode {l : Loop} {v : VNode} {source : Simple}
    (hs : l.source = .simple source)
    (hparams : ∀ x ∈ l.value.toList ++ l.key.toList, ∃ e, x = .simple e) :
    shown (loopCode l v).strokes = shown v.strokes := by
  have hlist (isFirst : Bool) (xs : List Expression) (hxs : ∀ x ∈ xs, ∃ e, x = .simple e) :
      shown (paramListStrokes isFirst (xs.map .expression)) = [] := by
    induction xs generalizing isFirst with
    | nil => rfl
    | cons x xs ih =>
      obtain ⟨⟨e, rfl⟩, hrest⟩ := List.forall_mem_cons.mp hxs
      simp [paramListStrokes, Param.strokes, Expression.strokes, ih false hrest]
  have hps := hlist true _ hparams
  rw [shown_vnode (by simp [loopCode]) (by simp [loopCode])]
  simp [loopCode, VNodeChildren.strokes, Call.strokes, argumentListStrokes, Argument.strokes,
    Callee.strokes, Code.strokes, FunctionCode.strokes.eq_def, Returns.strokes, Expression.strokes,
    paramsStrokes, Stroke.shown?, hs]
  simpa using hps

variable {o : LoweringOptions} {names : List String}

private theorem shown_finished {e e' : Element} {s : Scope} (hcode : e.code = none)
    (he : PropsKnown (·.shown? = none) false o s e.kind e.props)
    (h : Answer.finished o s e = .ok e') :
    (Child.element e').shown = e.children.flatMap Child.shown := by
  rcases finished_ok h with ⟨hk, rfl⟩ | ⟨hk, b, hb, rfl⟩
  · exact Child.shown_template hk hcode
  · have hbuilt := gives_built (o := o) (s := s) e
    rw [hb] at hbuilt
    obtain ⟨hp, hd⟩ := Ensures.of_gives
      (fun hs => buildProps_fine (admits_unshown hs) (he.directives hk)) (by exact hbuilt)
    rw [Child.shown_vnode rfl, shown_vnode]
    · exact shown_childrenCode e.children
    · exact fun p hp' => shown_eq_nil.mpr (hp p hp')
    · exact fun d hd' => shown_eq_nil.mpr (hd d hd')

private theorem Becomes.shown {e : Element} {c : Child} (hr : e.isRaw false = true)
    (h : Becomes o names e c) {cs : List Child}
    (hcs : Scoped.children o e.children (Placed.inner ⟨names, e⟩) = .ok cs) :
    c.shown = cs.flatMap Child.shown := by
  obtain ⟨hcode, hprops, -⟩ := Element.isRaw_iff.mp hr
  obtain ⟨props, e', hps, he, hlowers, hc⟩ := h.lowered hr hcs
  have hknown := processedProps_known admits_unshown (fun _ _ _ => rfl) hprops hps
  have hfinished : (Child.element e').shown = cs.flatMap Child.shown :=
    (shown_finished (by exact hcode) (by exact hknown) he).trans (shown_mergeText cs)
  rcases hc with rfl | ⟨parts, e'', v, hitem, rfl⟩
  · exact hfinished
  · rw [Child.shown_loop rfl, ← hfinished, ← hitem.shown hlowers]
    exact shown_loopCode rfl (by simp [loopOver])

/-- A text or interpolation at a place where the given names are declared, with the expression of
the interpolation processed. -/
def processText (o : LoweringOptions) : List String × TextChild → Except Fault TextChild
  | (names, .interpolation i) => do
    let content ← Answer.expression o (.of names) i.content
    return .interpolation { i with content }
  | (_, t) => .ok t

mutual

/-- The texts and interpolations of a tree in document order, each with the names that the loops
around it declare. -/
def childTexts : Child → List String → List (List String × TextChild)
  | .element e, names => elementTexts e names
  | .text t, names => [(names, .text t)]
  | .interpolation i, names => [(names, .interpolation i)]
  | _, _ => []

def elementTexts : Element → List String → List (List String × TextChild)
  | { props, children := cs, .. }, names =>
    childrenTexts cs (names ++ aliasesOf (loopDirectives props))

def childrenTexts : List Child → List String → List (List String × TextChild)
  | [], _ => []
  | c :: rest, names => childTexts c names ++ childrenTexts rest names

end

private theorem elementTexts_eq (e : Element) (names : List String) :
    elementTexts e names = childrenTexts e.children (Placed.inner ⟨names, e⟩) := by
  cases e
  rw [elementTexts]
  rfl

private theorem childrenTexts_eq (cs : List Child) (names : List String) :
    childrenTexts cs names = cs.flatMap (childTexts · names) := by
  induction cs with
  | nil => rw [childrenTexts, List.flatMap_nil]
  | cons c cs ih => rw [childrenTexts, List.flatMap_cons, ih]

private theorem texts_children {cs cs' : List Child}
    (h : List.Forall₂ (fun c c' : Child =>
      (childTexts c names).mapM (processText o) = .ok c'.shown) cs cs') :
    (childrenTexts cs names).mapM (processText o) = .ok (cs'.flatMap Child.shown) := by
  rw [childrenTexts_eq]
  exact listMapM_flatMap h

private theorem texts_child {c c' : Child} (hr : c.isRaw false = true)
    (h : Scoped.child o c names = .ok c') :
    (childTexts c names).mapM (processText o) = .ok c'.shown := by
  refine Scoped.child_induction (motive := fun names c c' =>
    (childTexts c names).mapM (processText o) = .ok c'.shown) ?_ ?_ ?_ ?_ hr h
  · simp [childTexts, processText, Child.shown, Child.listedStrokes, Stroke.shown?]
  · intro names i content' hr hcontent
    obtain ⟨content, span⟩ := i
    cases content with
    | compound c => cases hr
    | simple e =>
      have hp : processText o (names, .interpolation ⟨.simple e, span⟩) =
          .ok (.interpolation ⟨content', span⟩) := by
        rw [processText, hcontent]
        rfl
      obtain ⟨e', -, rfl⟩ := except_map_ok.mp hcontent
      rw [childTexts, List.mapM_cons, hp]
      simp [Child.shown, Child.listedStrokes, Interpolation.strokes, Expression.strokes,
        Stroke.shown?]
  · intro names c hcompounds
    cases hcompounds
  · intro names e c cs hr h hcs ih
    rw [childTexts, elementTexts_eq, texts_children ih, (becomes_of_element h).shown hr hcs]

private theorem shown_rootFragment (cs : List Child) :
    shown (rootFragment cs).strokes = cs.flatMap Child.shown := by
  rw [shown_vnode (by simp [rootFragment]) (by simp [rootFragment])]
  simp [rootFragment, shown_many]

private theorem ChosenCode.shown_codeStrokes {cs : List Child} {r : Root}
    (h : ChosenCode cs r.code) :
    TemplateCompiler.shown r.codeStrokes = cs.flatMap Child.shown := by
  unfold Root.codeStrokes
  generalize r.code = code at h
  cases h with
  | nothing =>
    dsimp only
    split <;> rfl
  | element _ hcode => rw [List.flatMap_singleton, Child.shown_vnode hcode]
  | loop hcode => rw [List.flatMap_singleton, Child.shown_loop hcode]
  | shown ht => rw [List.flatMap_singleton, Child.shown_text ht, ← strokes_text ht]
  | template hk hcode =>
    rw [List.flatMap_singleton, Child.shown_template hk hcode]
    exact shown_rootFragment _
  | fragment => exact shown_rootFragment cs

/-- The code of a lowered template shows the texts and interpolations of the template, each once
and in document order. A text is unchanged; of an interpolation only the expression is processed,
with the names of the loops around it in scope. -/
theorem lower_keeps_texts {r r' : Root} (hr : r.isRaw false = true) (h : lower o r = .ok r') :
    (childrenTexts r.children []).mapM (processText o) = .ok (shown r'.codeStrokes) := by
  obtain ⟨cs, hcs, hchosen⟩ := chosen_of_lower hr h
  simp only [Root.isRaw, Bool.and_eq_true] at hr
  rw [texts_children (forall₂_children texts_child hr.2 hcs), hchosen.shown_codeStrokes,
    shown_mergeText]

theorem itemRows_keeps_texts : ∃ r', lower {} itemRows = .ok r' ∧
    (childrenTexts itemRows.children []).mapM (processText {}) = .ok (shown r'.codeStrokes) := by
  have hok : (lower {} itemRows).isOk = true := by decide +kernel
  obtain ⟨r', h⟩ := except_ok_of_isOk hok
  exact ⟨r', h, lower_keeps_texts (by decide) h⟩

end Lowering

end TemplateCompiler
