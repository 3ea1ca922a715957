import TemplateCompiler.Proofs.PropsEmission
import TemplateCompiler.Proofs.Sites
import TemplateCompiler.Proofs.WalkAgreement

/-! What a lowered tree prints. A property of strokes that holds of all the lowering may print, and
of the texts and expressions of the template, holds of every stroke of the lowered template. -/
namespace TemplateCompiler.Lowering

open LowerM

variable {A : Stroke → Prop} {compounds : Bool}

/-- The property holds of the expressions of all directives but listeners. -/
def ExpressionsKnown (A : Stroke → Prop) (compounds : Bool) (ps : List ElementProp) : Prop :=
  ∀ d, .directive d ∈ ps → d.name ≠ "on" → ∀ x ∈ d.exp, x.Known A compounds

/-- The property holds of all that processed props can contribute. Listeners of a template element
contribute nothing. -/
structure PropsKnown (A : Stroke → Prop) (compounds : Bool) (o : LoweringOptions) (s : Scope)
    (kind : ElementKind) (ps : List ElementProp) : Prop where
  expressions : ExpressionsKnown A compounds ps
  directives : kind ≠ .template → ∀ d, .directive d ∈ ps → DirectiveKnown A compounds o s d

/-- The child has been lowered, and the property holds of its strokes. -/
inductive Emitted (A : Stroke → Prop) (compounds : Bool) : Child → Prop
  | shown {c : Child} {t : TextChild} (ht : c.textChild? = some t) (hf : Fine A t.strokes) :
      Emitted A compounds c
  | element {e : Element} {v : VNode} (hk : e.kind ≠ .template) (hc : e.code = some (.vnode v))
      (hf : Fine A v.strokes) : Emitted A compounds (.element e)
  | template {e : Element} (hk : e.kind = .template) (hc : e.code = none)
      (hp : ExpressionsKnown A compounds e.props) (hcs : ∀ c ∈ e.children, Emitted A compounds c) :
      Emitted A compounds (.element e)
  | loop {l : Loop} {v : VNode} (hc : l.code = some v) (hf : Fine A v.strokes) :
      Emitted A compounds (.loop l)

theorem listedStrokes_text {c : Child} {t : TextChild} (h : c.textChild? = some t) (b : Bool) :
    c.listedStrokes b = separator b ++ t.strokes := by
  cases c <;> cases h <;> simp [Child.listedStrokes, TextChild.strokes]

theorem strokes_text {c : Child} {t : TextChild} (h : c.textChild? = some t) :
    c.strokes = t.strokes := by
  cases c <;> cases h <;> simp [Child.strokes, TextChild.strokes]

theorem listedStrokes_vnode {e : Element} {v : VNode} (h : e.code = some (.vnode v)) (b : Bool) :
    (Child.element e).listedStrokes b = separator b ++ v.strokes := by
  cases e
  cases h
  simp [Child.listedStrokes, Element.listedStrokes, ElementCode.strokes]

theorem listedStrokes_template {e : Element} (hk : e.kind = .template) (hc : e.code = none)
    (b : Bool) : (Child.element e).listedStrokes b = childListStrokes b e.children := by
  cases e
  cases hk
  cases hc
  simp [Child.listedStrokes, Element.listedStrokes]

theorem listedStrokes_loop {l : Loop} {v : VNode} (h : l.code = some v) (b : Bool) :
    (Child.loop l).listedStrokes b = separator b ++ v.strokes := by
  cases l
  cases h
  simp [Child.listedStrokes, Loop.strokes]

private theorem fine_childList {cs : List Child} (h : ∀ c ∈ cs, ∀ b, Fine A (c.listedStrokes b))
    (b : Bool) : Fine A (childListStrokes b cs) := by
  induction cs generalizing b with
  | nil => simp [childListStrokes]
  | cons c cs ih =>
    obtain ⟨hc, hcs⟩ := List.forall_mem_cons.mp h
    simp [childListStrokes, hc b, ih hcs]

section
variable {hs : HelperSet} (ha : Admits A hs compounds)
include ha

private theorem Emitted.fine {c : Child} (h : Emitted A compounds c) (b : Bool) :
    Fine A (c.listedStrokes b) := by
  induction h generalizing b with
  | shown ht hf => simp [listedStrokes_text ht, ha.separator, hf]
  | element hk hc hf => simp [listedStrokes_vnode hc, ha.separator, hf]
  | template hk hc hp hcs ih =>
    rw [listedStrokes_template hk hc]
    exact fine_childList ih b
  | loop hc hf => simp [listedStrokes_loop hc, ha.separator, hf]

private theorem fine_emittedList {cs : List Child} (h : ∀ c ∈ cs, Emitted A compounds c)
    (b : Bool) :
    Fine A (childListStrokes b cs) :=
  fine_childList (fun c hc => (h c hc).fine ha) b

private theorem fine_joined {ts : List TextChild} (h : ∀ t ∈ ts, Fine A t.strokes) :
    Fine A (partsStrokes ((ts.map partOfText).intersperse plus)) := by
  have hpart (t : TextChild) (ht : Fine A t.strokes) : Fine A (partOfText t).strokes := by
    cases t <;> simpa [partOfText, Part.strokes, TextChild.strokes] using ht
  induction ts with
  | nil => simp [partsStrokes]
  | cons t ts ih =>
    obtain ⟨ht, hts⟩ := List.forall_mem_cons.mp h
    cases ts with
    | nil => simp [partsStrokes, hpart t ht]
    | cons t' ts =>
      have ih := ih hts
      rw [List.map_cons] at ih
      simp [partsStrokes, hpart t ht, plus, Part.strokes, ha.raw]
      exact ih

private theorem joinRun_emitted {run : List TextChild} (h : ∀ t ∈ run, Fine A t.strokes) :
    ∀ c ∈ joinRun run, Emitted A compounds c := by
  have hjoined := fine_joined ha h
  unfold joinRun
  split
  · simp
  · rename_i t
    rw [List.forall_mem_singleton] at h ⊢
    exact .shown (by cases t <;> rfl) h
  · rw [List.forall_mem_singleton]
    refine .shown rfl ?_
    rw [TextChild.strokes, Compound.strokes]
    exact hjoined

/-- Joining neighbouring texts emits nothing new. -/
theorem mergeText_emitted {cs : List Child} (h : ∀ c ∈ cs, Emitted A compounds c) :
    ∀ c ∈ mergeText cs, Emitted A compounds c := by
  have htext {c : Child} {t : TextChild} (hc : Emitted A compounds c)
      (ht : c.textChild? = some t) : Fine A t.strokes := by
    have hf := hc.fine ha true
    rw [listedStrokes_text ht, fine_append] at hf
    exact hf.2
  have hfrom (run : List TextChild) (hrun : ∀ t ∈ run, Fine A t.strokes) :
      ∀ c ∈ mergeTextFrom run cs, Emitted A compounds c := by
    induction cs generalizing run with
    | nil => exact joinRun_emitted ha hrun
    | cons c cs ih =>
      obtain ⟨hc, hcs⟩ := List.forall_mem_cons.mp h
      rw [mergeTextFrom]
      split
      · rename_i t ht
        apply ih hcs
        rw [List.forall_mem_append, List.forall_mem_singleton]
        exact ⟨hrun, htext hc ht⟩
      · rw [List.forall_mem_append, List.forall_mem_cons]
        exact ⟨joinRun_emitted ha hrun, hc, ih hcs [] (by simp)⟩
  unfold mergeText
  split
  · exact hfrom [] (by simp)
  · exact h

private theorem vnode_fine {v : VNode} (hc : hs.contains .createElementVNode = true)
    (ht : Fine A v.tag.strokes) (hp : ∀ p ∈ v.props, Fine A p.strokes)
    (hcs : ∀ cs ∈ v.children, Fine A cs.strokes)
    (hd : ∀ d ∈ v.directives, hs.contains .withDirectives = true ∧ Fine A d.strokes) :
    Fine A v.strokes := by
  obtain ⟨tag, props, children, _, directives, _, _, _, _⟩ := v
  simp only [VNode.strokes.eq_def, fine_append, fine_cons]
  refine ⟨⟨⟨⟨⟨?_, ha.helper _ hc, ha.raw _, ht⟩, ?_⟩, ?_⟩, ha.raw _, fine_nil⟩, ?_⟩
  · cases directives with
    | none => simp
    | some d => simp [ha.raw, ha.helper _ (hd d rfl).1]
  · cases props with
    | none => cases children <;> simp [ha.raw]
    | some p => simp [ha.raw, hp p rfl]
  · cases children with
    | none => simp
    | some cs => simp [ha.raw, hcs cs rfl]
  · cases directives with
    | none => simp
    | some d => simp [ha.raw, (hd d rfl).2]

private theorem childrenCode_fine {cs : List Child} (h : ∀ c ∈ cs, Emitted A compounds c) :
    ∀ code ∈ childrenCode cs, Fine A code.strokes := by
  have hmany : Fine A (VNodeChildren.many cs).strokes := by
    simp [VNodeChildren.strokes, ha.raw, fine_emittedList ha h]
  intro code hcode
  unfold childrenCode at hcode
  split at hcode
  · cases hcode
  · rename_i c
    split at hcode
    · rename_i t ht
      cases hcode
      have hf := (h c (by simp)).fine ha true
      rw [listedStrokes_text ht, fine_append] at hf
      rw [VNodeChildren.strokes]
      exact hf.2
    · cases hcode
      exact hmany
  · cases hcode
    exact hmany

private theorem fragment_fine {v : VNode} {cs : List Child} (ht : v.tag = .helper .fragment)
    (hcs : v.children = some (.many cs)) (hd : v.directives = none)
    (hp : ∀ p ∈ v.props, Fine A p.strokes) (h : ∀ c ∈ cs, Emitted A compounds c)
    (hf : hs.contains .fragment = true) (hc : hs.contains .createElementVNode = true) :
    Fine A v.strokes := by
  refine vnode_fine ha hc ?_ hp ?_ ?_
  · simp [ht, VNodeTag.strokes, ha.helper _ hf]
  · simp [hcs, VNodeChildren.strokes, ha.raw, fine_emittedList ha h]
  · simp [hd]

variable {o : LoweringOptions} {s : Scope}

private theorem tag_fine (e : Element) : Fine A (Answer.tag o e).strokes := by
  unfold Answer.tag
  split
  · simp [VNodeTag.strokes, ha.literal]
  · split <;> simp [VNodeTag.strokes, ha.raw]

private theorem finishElement_fine {e : Element} (hcode : e.code = none)
    (hcs : ∀ c ∈ e.children, Emitted A compounds c)
    (hprops : PropsKnown A compounds o s e.kind e.props) :
    Ensures o s hs (finishElement standardDirectives e) fun e' =>
      Emitted A compounds (.element e') := by
  unfold finishElement
  split
  · rename_i hk
    have hk : e.kind = .template := by simpa using hk
    exact Ensures.after_helper (ensures_pure fun _ => .template hk hcode hprops.expressions hcs)
  · rename_i hk
    have hk : e.kind ≠ .template := by simpa using hk
    refine (gives_tag e).ensures.bind fun tag => ?_
    refine (buildProps_fine ha (hprops.directives hk)).bind fun built => ?_
    have hvnode (hd : ∀ d ∈ built.directives, hs.contains .withDirectives = true)
        (hc : hs.contains .createElementVNode = true)
        (hb : (∀ p ∈ built.props, Fine A p.strokes) ∧ ∀ d ∈ built.directives, Fine A d.strokes)
        (ht : Except.ok (Answer.tag o e) = (.ok tag : Except Fault VNodeTag)) :
        Emitted A compounds (.element { e with
          children := []
          code := some (.vnode {
            tag, props := built.props, children := childrenCode e.children
            directives := built.directives, isComponent := e.isComponent, span := e.span }) }) := by
      cases ht
      refine .element hk rfl (vnode_fine ha hc (tag_fine ha e) hb.1 (childrenCode_fine ha hcs) ?_)
      exact fun d hmem => ⟨hd d hmem, hb.2 d hmem⟩
    refine Ensures.after_helper ?_
    dsimp only
    cases hdirectives : built.directives with
    | none =>
      rw [hdirectives] at hvnode
      exact ensures_pure fun hc hb ht => hvnode (by simp) hc hb ht
    | some d =>
      rw [hdirectives] at hvnode
      refine Ensures.after_helper (ensures_pure fun hw hc hb ht => ?_)
      exact hvnode (fun _ _ => hw) hc hb ht

theorem bodyProps_fine {e : Element} (hp : ExpressionsKnown A compounds e.props) :
    ∀ p ∈ (bodyFragment e).props, Fine A p.strokes := by
  have hkey : ∀ value ∈ templateKey? e, Fine A value.strokes := by
    intro value hv
    unfold templateKey? at hv
    split at hv
    · cases hv
    · cases hv
      rw [attributeProperty, Code.strokes]
      exact ha.expression (known_fixed _ _)
    · rename_i d hfind
      obtain ⟨exp, hexp, rfl⟩ := Option.map_eq_some_iff.mp hv
      have hbind : d.name ≠ "on" := by
        have h := List.find?_some hfind
        simp only [Element.bindsProp, Bool.and_eq_true, beq_iff_eq] at h
        rw [h.1]
        decide
      rw [Code.strokes]
      exact ha.expression (hp d (List.mem_of_find?_eq_some hfind) hbind exp hexp)
  intro p hp
  obtain ⟨value, hv, rfl⟩ := Option.map_eq_some_iff.mp hp
  simp [PropsCode.strokes, ha.object, ha.property, ha.key (known_fixed _ _), hkey value hv]

private theorem takeBody_fine {e : Element} (he : Emitted A compounds (.element e)) :
    Ensures o s hs (takeBody e) fun b => hs.contains .createElementVNode = true →
      ∀ v e', b = some (v, e') → Fine A v.strokes := by
  cases he with
  | shown ht => cases ht
  | element hk hcode hf =>
    simp only [takeBody, takeVNode?, hcode, bne_iff_ne, ne_eq, hk, not_false_eq_true, if_true]
    refine ensures_pure fun _ v e' h => ?_
    cases h
    exact hf
  | template hk hcode hp hcs =>
    have hfragment {cs : List Child} (hcs : ∀ c ∈ cs, Emitted A compounds c) (e' : Element) :
        Ensures o s hs (do
          LowerM.helper .fragment
          return some (bodyFragment { e with children := cs }, e'))
        fun b => hs.contains .createElementVNode = true →
          ∀ v e', b = some (v, e') → Fine A v.strokes := by
      refine Ensures.after_helper (ensures_pure fun hf hc v e' h => ?_)
      cases h
      exact fragment_fine ha rfl rfl rfl (bodyProps_fine ha hp) hcs hf hc
    unfold takeBody
    split
    · rename_i hk'
      simp [hk] at hk'
    · split
      · rename_i child hchildren
        have hchild := hcs (.element child) (by simp [hchildren])
        cases hchild with
        | shown ht => cases ht
        | element hk' hcode' hf' =>
          simp only [takeVNode?, hcode']
          refine ensures_pure fun _ v e' h => ?_
          cases h
          exact hf'
        | template hk' hcode' hp' hcs' =>
          simp only [takeVNode?, hcode']
          refine hfragment (List.forall_mem_singleton.mpr ?_) _
          exact .template hk' rfl hp' hcs'
      · exact hfragment hcs _

private theorem loopCode_fine {l : Loop} {body : VNode} (hs' : l.source.Known A compounds)
    (hparams : ∀ x ∈ l.value.toList ++ l.key.toList, x.Known A compounds)
    (hbody : Fine A body.strokes) (hr : hs.contains .renderList = true)
    (hf : hs.contains .fragment = true) (hc : hs.contains .createElementVNode = true) :
    Fine A (loopCode l body).strokes := by
  have hps : Fine A (paramsStrokes (some (.many
      ((l.value.toList ++ l.key.toList).map Param.expression)))) := by
    refine ha.params fun p hp => ?_
    obtain ⟨x, hx, rfl⟩ := List.mem_map.mp hp
    exact ha.expression (hparams x hx)
  refine vnode_fine ha hc ?_ ?_ ?_ ?_
  · simp [loopCode, VNodeTag.strokes, ha.helper _ hf]
  · simp [loopCode]
  · simp only [loopCode, Option.mem_some_iff, forall_eq']
    rw [VNodeChildren.strokes, ha.call]
    refine ⟨by simp [Callee.strokes, ha.helper _ hr], ?_⟩
    simp [Argument.strokes, Code.strokes, FunctionCode.strokes.eq_def, Returns.strokes, ha.raw,
      ha.expression hs', hbody]
    simpa using hps
  · simp [loopCode]

private theorem finishLoop_fine {l : Loop} {inner : Child} (hinner : Emitted A compounds inner)
    (hs' : l.source.Known A compounds)
    (hparams : ∀ x ∈ l.value.toList ++ l.key.toList, x.Known A compounds) :
    Ensures o s hs (finishLoop { l with children := [inner] }) fun l' =>
      Emitted A compounds (.loop l') := by
  unfold finishLoop
  cases inner with
  | element e =>
    refine (takeBody_fine ha hinner).bind fun b => ?_
    rcases b with _ | ⟨v, e'⟩
    · exact ensures_refuse _
    · refine Ensures.after_helper (Ensures.after_helper (Ensures.after_helper ?_))
      refine ensures_pure fun hc hf hr hb => .loop rfl ?_
      exact loopCode_fine ha hs' hparams (hb hc v e' rfl) hr hf hc
  | _ => exact ensures_refuse _

end

/-- The property holds of the code that can be printed for the place. -/
def Site.Allowed (A : Stroke → Prop) (o : LoweringOptions) (site : Site) : Prop :=
  ∀ e, site.Prints o e → A (.code e)

section
variable {o : LoweringOptions} {names : List String}

private theorem simple_known {e e' : Simple} (h : Site.Allowed A o (.expression names e))
    (he : Answer.simple o (.of names) e = .ok e') : (Expression.simple e').Known A compounds :=
  fun _ => h e' (.processed he)

private theorem expression_known {e e' : Expression} (hr : e.isRaw compounds = true)
    (h : ∀ site ∈ expressionSites names (some e), site.Allowed A o)
    (he : Answer.expression o (.of names) e = .ok e') : e'.Known A compounds := by
  cases e with
  | simple e =>
    rw [expressionSites, List.forall_mem_singleton] at h
    obtain ⟨e', he', rfl⟩ := except_map_ok.mp he
    exact simple_known h he'
  | compound c =>
    obtain ⟨parts, _, hc⟩ := except_bind_ok.mp he
    cases hc
    exact hr

private theorem argument_known {a a' : Expression} (hr : a.isRaw compounds = true)
    (h : ∀ site ∈ expressionSites names (some a), site.Allowed A o)
    (ha : Answer.argument o (.of names) a = .ok a') : a'.Known A compounds := by
  unfold Answer.argument at ha
  split at ha
  · rename_i hstatic
    cases ha
    cases a with
    | simple x =>
      intro hx
      rw [Expression.isStatic] at hstatic
      rw [hstatic] at hx
      cases hx
    | compound c => exact hr
  · exact expression_known hr h ha

/-- Processing a simple expression resolves its names, or it changes no more than whether the
expression counts as constant. -/
theorem simple_ok {s : Scope} {e e' : Simple} (h : Answer.simple o s e = .ok e') :
    ((e.isStatic = true ∨ Text.isAllBlank e.content = true ∨ o.prefixIdentifiers = false) ∧
      ∃ constancy, e' = { e with constancy }) ∨
      e.isStatic = false ∧ o.prefixIdentifiers = true ∧
        ∃ r, Expression.resolve? o s e.content = some r ∧
          e' = { e with content := r.code, constancy := r.constancy } := by
  unfold Answer.simple Simple.processed? at h
  split at h
  · cases h
  · rename_i e₁ usesUnref hp
    cases h
    split at hp
    · rename_i hkept
      cases hp
      rw [Bool.or_eq_true] at hkept
      exact .inl ⟨hkept.imp_right .inl, _, rfl⟩
    · rename_i hkept
      simp only [Bool.or_eq_true, not_or, Bool.not_eq_true] at hkept
      split at hp
      · rename_i hprefix
        obtain ⟨r, hr, hr'⟩ := Option.map_eq_some_iff.mp hp
        cases hr'
        exact .inr ⟨hkept.1, hprefix, r, hr, rfl⟩
      · rename_i hprefix
        have hprefix : o.prefixIdentifiers = false := by simpa using hprefix
        split at hp <;> cases hp <;> exact .inl ⟨.inr (.inr hprefix), _, rfl⟩

/-- What processing leaves alone in a directive. -/
theorem directive_ok {s : Scope} {d d' : Directive} (h : Answer.directive o s d = .ok d') :
    d'.name = d.name ∧ (d.name = "on" → d'.exp = d.exp) ∧
      (d.name ≠ "on" → d.exp.mapM (Answer.expression o s) = .ok d'.exp) ∧
      d.arg.mapM (Answer.argument o s) = .ok d'.arg := by
  unfold Answer.directive at h
  by_cases hn : d.name = "on"
  · rw [if_pos (by simpa using hn)] at h
    obtain ⟨exp, hexp, h⟩ := except_bind_ok.mp h
    obtain ⟨arg, harg, h⟩ := except_bind_ok.mp h
    cases hexp
    cases h
    exact ⟨rfl, fun _ => rfl, fun h => absurd hn h, harg⟩
  · rw [if_neg (by simpa using hn)] at h
    obtain ⟨exp, hexp, h⟩ := except_bind_ok.mp h
    obtain ⟨arg, harg, h⟩ := except_bind_ok.mp h
    cases h
    exact ⟨rfl, fun h => absurd h hn, fun _ => hexp, harg⟩

private theorem mem_expSites {kind : ElementKind} {d : Directive}
    (hd : d.name = "on" → kind ≠ .template ∧ d.arg.isSome = true) {site : Site}
    (h : site ∈ expressionSites names d.exp) : site ∈ propSites kind names (.directive d) := by
  rw [propSites]
  refine List.mem_append_right _ ?_
  rw [if_neg]
  · exact h
  · intro hc
    simp only [Bool.and_eq_true, Bool.or_eq_true, beq_iff_eq] at hc
    obtain ⟨hk, harg⟩ := hd hc.1
    rcases hc.2 with hc | hc
    · exact hk hc
    · rw [Option.isNone_iff_eq_none.mp hc] at harg
      cases harg

variable {hs : HelperSet} (ha : Admits A hs compounds)
include ha

private theorem handler_fine {exp : Option Expression} {v : Code}
    (hr : exp.all (·.isRaw compounds) = true)
    (h : ∀ site ∈ expressionSites names exp, site.Allowed A o)
    (hv : Answer.handler o (.of names) exp = .ok v) : Fine A v.strokes := by
  have hidle : Fine A (Code.expression (.simple (.code "() => \x7b\x7d" .stub))).strokes := by
    rw [Code.strokes]
    exact ha.expression fun _ => ha.idle
  rcases exp with _ | (e | c)
  · cases hv
    exact hidle
  · rw [expressionSites, List.forall_mem_singleton] at h
    rw [Answer.handler] at hv
    split at hv
    · cases hv
      exact hidle
    · obtain ⟨e', he, hv⟩ := except_bind_ok.mp hv
      cases hv
      rw [Code.strokes]
      refine ha.expression fun _ => ?_
      split
      · exact h _ (.handler he)
      · exact h _ (.processed he)
  · cases hv
    rw [Code.strokes]
    exact ha.expression (e := .compound c) hr

private theorem directive_known {kind : ElementKind} {d d' : Directive}
    (hr : (ElementProp.directive d).isRaw compounds = true)
    (h : ∀ site ∈ propSites kind names (.directive d), site.Allowed A o)
    (hd : Answer.directive o (.of names) d = .ok d') :
    (d'.name ≠ "on" → ∀ x ∈ d'.exp, x.Known A compounds) ∧
      (kind ≠ .template → DirectiveKnown A compounds o (.of names) d') := by
  obtain ⟨hname, hon, hexp, harg⟩ := directive_ok hd
  simp only [ElementProp.isRaw, Bool.and_eq_true] at hr
  rw [hname]
  have hknown (hn : d.name ≠ "on") : ∀ x ∈ d'.exp, x.Known A compounds := by
    intro x hx
    obtain ⟨e, he, hex⟩ := optionMapM_ok (hexp hn) hx
    have hre : e.isRaw compounds = true := by simpa [Option.mem_def.mp he] using hr.1
    refine expression_known hre (fun site hsite => h site (mem_expSites (absurd · hn) ?_)) hex
    rwa [Option.mem_def.mp he]
  refine ⟨hknown, fun hk => ⟨?_, hname ▸ hknown, ?_, ?_⟩⟩
  · intro x hx
    obtain ⟨a, ha, hax⟩ := optionMapM_ok harg hx
    have hra : a.isRaw compounds = true := by simpa [Option.mem_def.mp ha] using hr.2
    refine argument_known hra (fun site hsite => h site (List.mem_append_left _ ?_)) hax
    rwa [Option.mem_def.mp ha]
  · intro hn hsome v hv
    rw [hname] at hn
    rw [hon hn] at hv
    obtain ⟨x, hx⟩ := Option.isSome_iff_exists.mp hsome
    obtain ⟨a, ha', _⟩ := optionMapM_ok harg hx
    have hsome : d.arg.isSome = true := by simp [Option.mem_def.mp ha']
    refine handler_fine ha hr.1 (fun site hsite => h site ?_) hv
    exact mem_expSites (fun _ => ⟨hk, hsome⟩) hsite
  · intro hn x hx
    have hn' : d.name ≠ "on" := by
      rw [← hname, hn]
      decide
    obtain ⟨e, he, hex⟩ := optionMapM_ok (hexp hn') hx
    cases e with
    | simple e =>
      obtain ⟨e', he', rfl⟩ := except_map_ok.mp hex
      refine h _ (mem_expSites (absurd · hn') ?_) _ (.assigned he')
      simp [Option.mem_def.mp he, expressionSites]
    | compound c =>
      have hrc : compounds = true := by
        simpa [Option.mem_def.mp he, Expression.isRaw] using hr.1
      exact ha.code hrc _

end

/-- The property also holds of the texts and interpolations of a template. -/
structure AdmitsShown (A : Stroke → Prop) (hs : HelperSet) (compounds : Bool) : Prop extends
    Admits A hs compounds where
  text : ∀ t, A (.text t)
  display : hs.contains .toDisplayString = true → ∀ i, A (.display i)

section
variable {o : LoweringOptions} {names : List String} {hs : HelperSet}

section
variable (ha : Admits A hs compounds)
include ha

private theorem wrap_fine {e : Element} {body : LowerM Child} {ds : List Directive}
    (hsites : ∀ site ∈ headerSites ds names, site.Allowed A o)
    (hb : Ensures o (.of (names ++ aliasesOf ds)) hs body (Emitted A compounds)) :
    Ensures o (.of names) hs (Lexical.wrap e body ds) (Emitted A compounds) := by
  induction ds generalizing names with
  | nil =>
    rw [aliasesOf, List.append_nil] at hb
    exact hb
  | cons d ds ih =>
    rw [Lexical.wrap]
    cases hp : headerOf d with
    | error r => exact ensures_refuse r
    | ok p =>
      simp only [headerSites, hp, List.cons_append, List.forall_mem_cons, List.forall_mem_append,
        List.forall_mem_map] at hsites
      obtain ⟨hsource, hvalue, hkey, hinner⟩ := hsites
      rw [aliasesOf_cons_ok hp, ← List.append_assoc] at hb
      refine (gives_simple p.source).ensures.bind fun source => ?_
      have hbody : Ensures o (.of names) hs
          (withNames (loopOver e { p with source }).aliasNames (Lexical.wrap e body ds))
          (Emitted A compounds) := by
        refine Ensures.withNames ?_
        rw [aliasNames_loopOver, ← Scope.of_append]
        exact ih hinner hb
      refine hbody.bind fun inner => ?_
      have hloop : Ensures o (.of names) hs
          (finishLoop { loopOver e { p with source } with children := [inner] }) fun l =>
            (Emitted A compounds inner ∧ Answer.simple o (.of names) p.source = .ok source) →
              Emitted A compounds (.loop l) := by
        refine (registers_finishLoop _).ensures_of fun h => ?_
        refine finishLoop_fine ha h.1 (simple_known hsource h.2) fun x hx => ?_
        simp only [loopOver, Option.toList_some, List.mem_append, List.mem_singleton] at hx
        rcases hx with rfl | hx
        · exact fun _ => hvalue _ (.declared _)
        · obtain ⟨k, hk, rfl⟩ := Option.map_eq_some_iff.mp (Option.mem_toList.mp hx)
          exact fun _ => hkey k (Option.mem_toList.mpr hk) _ (.declared _)
      exact hloop.bind fun l => ensures_pure fun hl hinner hs => hl ⟨hinner, hs⟩

/-- What the processed props of an element contribute is allowed, if their places are. -/
theorem processProps_known (kind : ElementKind) {ps : List ElementProp}
    (hfor : ∀ d, .directive d ∈ ps → d.name ≠ "for") (hraw : ∀ p ∈ ps, p.isRaw compounds = true)
    (hsites : ∀ site ∈ ps.flatMap (propSites kind names), site.Allowed A o) :
    Ensures o (.of names) hs (ps.mapM processProp)
      (PropsKnown A compounds o (.of names) kind) := by
  refine (ensures_mapM fun p _ => (gives_prop p).ensures).imp fun ps' hps => ?_
  have hknown (d' : Directive) (hd' : .directive d' ∈ ps') :
      (d'.name ≠ "on" → ∀ x ∈ d'.exp, x.Known A compounds) ∧
        (kind ≠ .template → DirectiveKnown A compounds o (.of names) d') := by
    obtain ⟨p, hp, hprop⟩ := forall₂_exists_right hps hd'
    cases p with
    | plain a => cases hprop
    | directive d =>
      rw [Answer.prop, if_neg (by simpa using hfor d hp)] at hprop
      obtain ⟨d'', hd, hdd⟩ := except_map_ok.mp hprop
      cases hdd
      refine directive_known ha (hraw _ hp) (fun site hsite => hsites site ?_) hd
      exact List.mem_flatMap.mpr ⟨_, hp, hsite⟩
  exact ⟨fun d hd => (hknown d hd).1, fun hk d hd => (hknown d hd).2 hk⟩

private theorem plain_fine {e : Element} {cs : LowerM (List Child)} (hcode : e.code = none)
    (hfor : ∀ d, .directive d ∈ e.props → d.name ≠ "for")
    (hraw : ∀ p ∈ e.props, p.isRaw compounds = true)
    (hsites : ∀ site ∈ e.props.flatMap (propSites e.kind names), site.Allowed A o)
    (hcs : Ensures o (.of names) hs cs fun cs => ∀ c ∈ cs, Emitted A compounds c) :
    Ensures o (.of names) hs (Lexical.plain e cs) (Emitted A compounds) := by
  refine (processProps_known ha e.kind hfor hraw hsites).bind fun ps => hcs.bind fun cs => ?_
  have hfinish : Ensures o (.of names) hs
      (finishElement standardDirectives { e with props := ps, children := mergeText cs })
      fun e' => (∀ c ∈ cs, Emitted A compounds c) ∧
        PropsKnown A compounds o (.of names) e.kind ps → Emitted A compounds (.element e') := by
    refine (registers_finishElement _).ensures_of fun h => ?_
    exact finishElement_fine ha hcode (mergeText_emitted ha h.1) h.2
  exact hfinish.bind fun e' => ensures_pure fun he hcs hps => he ⟨hcs, hps⟩

private theorem chooseCode_fine {s : Scope} {r : Root}
    (hcs : ∀ c ∈ r.children, Emitted A compounds c) :
    Ensures o s hs (chooseCode r) fun r' => Fine A r'.codeStrokes := by
  have hwrap (r : Root) {cs : List Child} (h : ∀ c ∈ cs, Emitted A compounds c) :
      Ensures o s hs (wrapFragment r cs) fun r' => Fine A r'.codeStrokes := by
    refine Ensures.after_helper (Ensures.after_helper (ensures_pure fun hc hf => ?_))
    exact fragment_fine ha (v := rootFragment cs) rfl rfl rfl (by simp [rootFragment]) h hf hc
  unfold chooseCode
  split
  · rename_i hnil
    refine ensures_pure ?_
    simp [Root.codeStrokes, hnil]
  · rename_i e hc
    rw [hc, List.forall_mem_singleton] at hcs
    cases hcs with
    | shown ht => cases ht
    | element hk hcode hf =>
      simp only [beq_iff_eq, hk, if_false, hcode]
      exact ensures_pure hf
    | template hk _ _ h =>
      simp only [hk, beq_self_eq_true, if_true]
      exact hwrap _ h
  · rename_i l hc
    rw [hc, List.forall_mem_singleton] at hcs
    cases hcs with
    | shown ht => cases ht
    | loop hcode hf =>
      simp only [hcode]
      exact ensures_pure hf
  · rename_i c hne hnl hc
    rw [hc, List.forall_mem_singleton] at hcs
    cases hcs with
    | shown ht hf =>
      refine ensures_pure ?_
      change Fine A c.strokes
      rw [strokes_text ht]
      exact hf
    | element => exact (hne _ rfl).elim
    | template => exact (hne _ rfl).elim
    | loop => exact (hnl _ rfl).elim
  · exact hwrap _ hcs

end

private theorem fine_children {cs : List Child}
    (h : ∀ c ∈ cs, Ensures o (.of names) hs (Lexical.child c) (Emitted A compounds)) :
    Ensures o (.of names) hs (Lexical.children cs) fun cs' => ∀ c ∈ cs', Emitted A compounds c := by
  refine (Lexical.ensures_children h).imp fun cs' hcs c hc => ?_
  obtain ⟨_, -, hc⟩ := forall₂_exists_right hcs hc
  exact hc

private theorem child_fine (ha : AdmitsShown A hs compounds) {c : Child}
    (hr : c.isRaw compounds = true) (hsites : ∀ site ∈ childSites c names, site.Allowed A o) :
    Ensures o (.of names) hs (Lexical.child c) (Emitted A compounds) := by
  induction c using Child.induction generalizing names with
  | element e ih =>
    rw [Child.isRaw, Element.isRaw_iff] at hr
    obtain ⟨hcode, hprops, hcs⟩ := hr
    rw [childSites, elementSites_eq, childrenSites_eq] at hsites
    simp only [List.forall_mem_append, List.forall_mem_flatMap] at hsites
    obtain ⟨⟨⟨hheader, _⟩, hplain⟩, hchildren⟩ := hsites
    rw [Lexical.child, Lexical.element_eq]
    refine wrap_fine ha.toAdmits hheader (plain_fine ha.toAdmits hcode ?_ ?_ ?_ ?_)
    · exact fun d hd => name_of_mem_otherProps hd
    · exact fun p hp => hprops p (mem_of_mem_otherProps hp)
    · exact List.forall_mem_flatMap.mpr hplain
    · exact fine_children fun c hc => ih c hc (hcs c hc) (hchildren c hc)
  | text t =>
    rw [Lexical.child]
    refine ensures_pure (.shown rfl ?_)
    simp [TextChild.strokes, ha.text]
  | interpolation i =>
    rw [Child.isRaw] at hr
    rw [childSites] at hsites
    rw [Lexical.child]
    refine (gives_expression i.content).ensures.bind fun content => ?_
    refine Ensures.after_helper (ensures_pure fun hd hc => .shown rfl ?_)
    have hcontent := ha.expression (expression_known hr hsites hc)
    simp [TextChild.strokes, Interpolation.strokes, ha.raw, ha.display hd, hcontent]
  | loop l =>
    rw [Child.isRaw] at hr
    cases hr
  | compound c =>
    rw [Child.isRaw] at hr
    rw [Lexical.child]
    exact ensures_pure (.shown rfl (ha.compound hr c))

/-- All that is printed of lowered children is admitted. -/
theorem children_fine (ha : AdmitsShown A hs compounds) {cs : List Child}
    (hr : areRaw compounds cs = true) (hsites : ∀ site ∈ childrenSites cs names, site.Allowed A o) :
    Ensures o (.of names) hs (Lexical.children cs) fun cs' => ∀ c ∈ cs', Emitted A compounds c := by
  rw [childrenSites_eq] at hsites
  exact fine_children fun c hc => child_fine ha (areRaw_iff.mp hr c hc) fun site hsite =>
    hsites site (List.mem_flatMap.mpr ⟨c, hc, hsite⟩)

/-- All that is printed of a lowered root is admitted. -/
theorem root_fine (ha : AdmitsShown A hs compounds) {r : Root} (hr : r.isRaw compounds = true)
    (hsites : ∀ site ∈ childrenSites r.children [], site.Allowed A o) :
    Ensures o (.of []) hs (Lexical.root r) fun r' => Fine A r'.codeStrokes := by
  simp only [Root.isRaw, Bool.and_eq_true] at hr
  refine (children_fine ha hr.2 hsites).bind fun cs => ?_
  refine (registers_chooseCode _).ensures_of fun hcs => ?_
  exact chooseCode_fine ha.toAdmits (mergeText_emitted ha.toAdmits hcs)

end

/-- The frame of the printed function adds lines, raw text and the component look-ups. -/
theorem fine_rootStrokes {r : Root} (hraw : ∀ t, A (.raw t))
    (hlines : A .newline ∧ A .indent ∧ A .deindent)
    (hresolve : r.components ≠ [] → A (.helper .resolveComponent)) (hcode : Fine A r.codeStrokes) :
    Fine A r.strokes := by
  obtain ⟨hnewline, hindent, hdeindent⟩ := hlines
  have hassets (components : List String) (h : A (.helper .resolveComponent)) :
      Fine A (assetListStrokes components) := by
    have hasset (component : String) : Fine A (assetStrokes component) := by
      simp [assetStrokes, hraw, h]
    fun_induction assetListStrokes components with
    | case1 => simp
    | case2 component => exact hasset component
    | case3 component rest _ ih => simp [hasset, hnewline, ih]
  rw [Root.strokes]
  cases hc : r.components with
  | nil => simp [hraw, hindent, hdeindent, hcode]
  | cons c cs =>
    have hlist := hassets (c :: cs) (hresolve (by simp [hc]))
    simp [hraw, hindent, hdeindent, hcode, hlist, hnewline]

private theorem registers_root (r : Root) : Registers (Lexical.root r) :=
  (Lexical.registers_children _).bind fun _ => registers_chooseCode _

theorem root_keeps {r r' : Root} (h : Answer.root r = .ok r') :
    r'.helpers = r.helpers ∧ r'.components = r.components := by
  unfold Answer.root at h
  split at h
  · cases h
    exact ⟨rfl, rfl⟩
  · split at h
    · cases h
      exact ⟨rfl, rfl⟩
    · split at h <;> cases h <;> exact ⟨rfl, rfl⟩
  · split at h <;> cases h
    exact ⟨rfl, rfl⟩
  · cases h
    exact ⟨rfl, rfl⟩
  · cases h
    exact ⟨rfl, rfl⟩

/-- What the recursion over the tree ensures holds of a lowered template, which lists the
registered helpers and components behind those that it had. -/
theorem lower_ensures {o : LoweringOptions} {r r' : Root} {q : HelperSet → Root → Prop}
    (hq : ∀ hs, Ensures o (.of []) hs (Lexical.root r) (q hs)) (h : lower o r = .ok r') :
    ∃ hs components r₁, q hs r₁ ∧
      (components ≠ [] → hs.contains .resolveComponent = true) ∧
      r' = { r₁ with
        helpers := r.helpers ++ hs.toList
        components := r.components ++ components
        transformed := true } := by
  rw [lower_eq, Lexical.lower] at h
  cases hrun : Lexical.root r { options := o } with
  | error f c =>
    rw [hrun] at h
    cases h
  | ok r₁ c =>
    rw [hrun] at h
    cases h
    obtain ⟨cs, d, -, hroot⟩ := step_bind_ok.mp hrun
    obtain ⟨hhelpers, hcomponents⟩ := root_keeps ((gives_root _).of_ok rfl rfl hroot).1
    refine ⟨c.helpers, c.components, r₁, Ensures.of_ok hq rfl rfl hrun, ?_, ?_⟩
    · exact (registers_root r).resolves_components rfl hrun
    · rw [hhelpers, hcomponents]

end TemplateCompiler.Lowering
