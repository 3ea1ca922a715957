import TemplateCompiler.Proofs.Scoping

/-! The elements of a template, each with the names that the loops around it declare, what the
lowering makes of one of them, and the code that it chooses for the template. -/
namespace TemplateCompiler

namespace Lowering

/-- An element of a template and the names declared around it. -/
structure Placed where
  names : List String
  element : Element

/-- The names declared inside the element, where those of its own loops are added. -/
def Placed.inner (p : Placed) : List String :=
  p.names ++ aliasesOf (loopDirectives p.element.props)

mutual

/-- The elements of a tree around which the given names are declared, outer ones first. -/
def childElements : Child → List String → List Placed
  | .element e, names => elementElements e names
  | .loop l, names => loopElements l names
  | _, _ => []

def elementElements : Element → List String → List Placed
  | { tag, kind, props, children := cs, isSelfClosing, span, code }, names =>
    ⟨names, { tag, kind, props, children := cs, isSelfClosing, span, code }⟩ ::
      childrenElements cs (names ++ aliasesOf (loopDirectives props))

def loopElements : Loop → List String → List Placed
  | { children := cs, .. }, names => childrenElements cs names

def childrenElements : List Child → List String → List Placed
  | [], _ => []
  | c :: rest, names => childElements c names ++ childrenElements rest names

end

end Lowering

/-- The elements of a whole template. -/
def Root.elements (r : Root) : List Lowering.Placed := Lowering.childrenElements r.children []

namespace Lowering

open LowerM

theorem elementElements_eq (e : Element) (names : List String) : elementElements e names =
    ⟨names, e⟩ :: childrenElements e.children (names ++ aliasesOf (loopDirectives e.props)) := by
  cases e
  rw [elementElements]

theorem loopElements_eq (l : Loop) (names : List String) :
    loopElements l names = childrenElements l.children names := by
  cases l
  rw [loopElements]

theorem childrenElements_eq (cs : List Child) (names : List String) :
    childrenElements cs names = cs.flatMap (childElements · names) := by
  induction cs with
  | nil => rw [childrenElements, List.flatMap_nil]
  | cons c cs ih => rw [childrenElements, List.flatMap_cons, ih]

variable {o : LoweringOptions} {names : List String}

/-- The second element is the first one with its props processed and its children lowered where
the names are declared, and with its virtual node. Loop directives are left aside. -/
inductive Finishes (o : LoweringOptions) (names : List String) (e : Element) : Element → Prop
  | intro {props : List ElementProp} {cs : List Child} {e' : Element}
      (hprops : (otherProps e.props).mapM (Answer.prop o (.of names)) = .ok props)
      (hcs : Scoped.children o e.children names = .ok cs)
      (he : Answer.finished o (.of names) { e with props, children := mergeText cs } = .ok e') :
      Finishes o names e e'

/-- What the lowering makes of an element: the finished element, or, if it has a loop directive,
a loop around it. -/
inductive Becomes (o : LoweringOptions) (names : List String) (e : Element) : Child → Prop
  | element {e' : Element} (hd : loopDirectives e.props = []) (he : Finishes o names e e') :
      Becomes o names e (.element e')
  | loop {d : Directive} {parts : HeaderParts} {source : Simple} {e' e'' : Element} {v : VNode}
      (hd : loopDirectives e.props = [d]) (hparts : headerOf d = .ok parts)
      (hsource : Answer.simple o (.of names) parts.source = .ok source)
      (he : Finishes o (names ++ parts.aliases) e e') (hbody : Answer.body e' = some (v, e'')) :
      Becomes o names e (.loop {
        loopOver { e with props := otherProps e.props } { parts with source } with
        children := [.element e'']
        code := some (loopCode
          (loopOver { e with props := otherProps e.props } { parts with source }) v) })

theorem plain_ok {e : Element} {c : Child}
    (h : Scoped.plain o { e with props := otherProps e.props } names
      (Scoped.children o e.children names) = .ok c) :
    ∃ e', Finishes o names e e' ∧ c = .element e' := by
  obtain ⟨props, hprops, h⟩ := except_bind_ok.mp h
  obtain ⟨cs, hcs, h⟩ := except_bind_ok.mp h
  obtain ⟨e', he', h⟩ := except_bind_ok.mp h
  cases h
  exact ⟨e', .intro hprops hcs he', rfl⟩

/-- A finished element is a template, which stays as it was, or it has got its node. -/
theorem finished_ok {s : Scope} {e e' : Element} (h : Answer.finished o s e = .ok e') :
    e.kind = .template ∧ e' = e ∨ e.kind ≠ .template ∧
      ∃ b, e.props.foldlM (Answer.addProp o s e) {} = .ok b ∧ e' = { e with
        children := [], code := some (.vnode (Answer.vnode o e (Answer.build b))) } := by
  unfold Answer.finished at h
  split at h
  · rename_i hk
    cases h
    exact .inl ⟨by simpa using hk, rfl⟩
  · rename_i hk
    obtain ⟨b, hb, h⟩ := except_bind_ok.mp h
    cases h
    exact .inr ⟨by simpa using hk, b, hb, rfl⟩

/-- The body of a loop always has a virtual node: an element that is not a template element has
been given one. -/
theorem Finishes.body {e e' : Element} (h : Finishes o names e e') :
    (Answer.body e').isSome = true := by
  obtain ⟨hprops, hcs, he⟩ := h
  unfold Answer.body
  rcases finished_ok he with ⟨hk, rfl⟩ | ⟨hk, b, -, rfl⟩
  · rw [if_neg (by simpa using hk)]
    split
    · split <;> rfl
    · rfl
  · rw [if_pos (by simpa using hk)]
    rfl

/-- A loop is finished only around an element: of two loop directives the outer one finds a loop
in its body. -/
private theorem finishedLoop_ok {l l' : Loop} {inner : Child}
    (h : Answer.finishedLoop { l with children := [inner] } = .ok l') :
    ∃ e v e', inner = .element e ∧ Answer.body e = some (v, e') ∧
      l' = { l with children := [.element e'], code := some (loopCode l v) } := by
  cases inner with
  | element e =>
    unfold Answer.finishedLoop at h
    simp only at h
    cases hb : Answer.body e with
    | none =>
      rw [hb] at h
      cases h
    | some b =>
      rw [hb] at h
      cases h
      exact ⟨e, b.1, b.2, rfl, hb, rfl⟩
  | _ => cases h

/-- An element under a loop directive becomes the list that the directive describes. -/
theorem wrap_ok {e : Element} {body : List String → Except Fault Child} {d : Directive}
    {ds : List Directive} {c : Child} (h : Scoped.wrap o e body (d :: ds) names = .ok c) :
    ∃ parts source inner l', headerOf d = .ok parts ∧
      Answer.simple o (.of names) parts.source = .ok source ∧
      Scoped.wrap o e body ds (names ++ parts.aliases) = .ok inner ∧
      Answer.finishedLoop { loopOver e { parts with source } with children := [inner] } = .ok l' ∧
      c = .loop l' := by
  rw [Scoped.wrap] at h
  cases hparts : headerOf d with
  | error r =>
    rw [hparts] at h
    cases h
  | ok parts =>
    rw [hparts] at h
    obtain ⟨source, hsource, h⟩ := except_bind_ok.mp h
    obtain ⟨inner, hinner, h⟩ := except_bind_ok.mp h
    obtain ⟨l', hl', h⟩ := except_bind_ok.mp h
    cases h
    rw [aliasNames_loopOver] at hinner
    exact ⟨parts, source, inner, l', rfl, hsource, hinner, hl', rfl⟩

/-- An element that is lowered becomes what its directives say. -/
theorem becomes_of_element {e : Element} {c : Child} (h : Scoped.element o e names = .ok c) :
    Becomes o names e c := by
  rw [Scoped.element_eq] at h
  cases hd : loopDirectives e.props with
  | nil =>
    rw [hd] at h
    obtain ⟨e', he, rfl⟩ := plain_ok h
    exact .element hd he
  | cons d ds =>
    rw [hd] at h
    obtain ⟨parts, source, inner, l', hparts, hsource, hinner, hl', rfl⟩ := wrap_ok h
    obtain ⟨e', v, e'', rfl, hbody, rfl⟩ := finishedLoop_ok hl'
    cases ds with
    | nil =>
      obtain ⟨e₁, he, h₁⟩ := plain_ok hinner
      cases h₁
      exact .loop hd hparts hsource he hbody
    | cons d' ds =>
      -- The body of the outer loop is a loop, not an element.
      obtain ⟨_, _, _, _, _, _, _, _, h₁⟩ := wrap_ok hinner
      cases h₁

theorem forall₂_of_children {cs cs' : List Child} (h : Scoped.children o cs names = .ok cs') :
    List.Forall₂ (fun c c' => Scoped.child o c names = .ok c') cs cs' := by
  rw [Scoped.children_eq] at h
  exact listMapM_forall₂ h

/-- An element is finished with the names declared inside it. If it has a loop directive, the loop
takes the virtual node of one item out of the finished element. -/
theorem Becomes.finishes {e : Element} {c : Child} (h : Becomes o names e c) :
    ∃ e', Finishes o (Placed.inner ⟨names, e⟩) e e' ∧ (c = .element e' ∨
      ∃ parts e'' v, Answer.body e' = some (v, e'') ∧ c = .loop {
        loopOver { e with props := otherProps e.props } parts with
        children := [.element e'']
        code := some (loopCode (loopOver { e with props := otherProps e.props } parts) v) }) := by
  cases h with
  | element hd he =>
    rw [Placed.inner, hd, aliasesOf, List.append_nil]
    exact ⟨_, he, .inl rfl⟩
  | loop hd hparts _ he hbody =>
    rw [Placed.inner, hd, aliasesOf_cons_ok hparts, aliasesOf, List.append_nil]
    exact ⟨_, he, .inr ⟨_, _, _, hbody, rfl⟩⟩

/-- Induction over a template that is lowered, in which nothing had been lowered before: what holds
of the children of an element and what they become, in order, holds of the element. -/
theorem Scoped.child_induction {compounds : Bool} {motive : List String → Child → Child → Prop}
    (text : ∀ names t, motive names (.text t) (.text t))
    (interpolation : ∀ names i content, i.content.isRaw compounds = true →
      Answer.expression o (.of names) i.content = .ok content →
      motive names (.interpolation i) (.interpolation { i with content }))
    (compound : ∀ names c, compounds = true → motive names (.compound c) (.compound c))
    (element : ∀ names e c cs, e.isRaw compounds = true → Scoped.element o e names = .ok c →
      Scoped.children o e.children (Placed.inner ⟨names, e⟩) = .ok cs →
      List.Forall₂ (motive (Placed.inner ⟨names, e⟩)) e.children cs → motive names (.element e) c)
    {c c' : Child} (hr : c.isRaw compounds = true) (h : Scoped.child o c names = .ok c') :
    motive names c c' := by
  induction c using Child.induction generalizing names c' with
  | element e ih =>
    rw [Child.isRaw] at hr
    rw [Scoped.child] at h
    obtain ⟨e', ⟨-, hcs, -⟩, -⟩ := (becomes_of_element h).finishes
    have hraw := (Element.isRaw_iff.mp hr).2.2
    refine element names e c' _ hr h hcs ?_
    have hall := (List.forall₂_and_left _ _).mpr
      ⟨fun c hc => And.intro (hraw c hc) hc, forall₂_of_children hcs⟩
    exact hall.imp fun c c' hc => ih c hc.1.2 hc.1.1 hc.2
  | text t =>
    rw [Scoped.child] at h
    cases h
    exact text names t
  | interpolation i =>
    rw [Child.isRaw] at hr
    rw [Scoped.child] at h
    obtain ⟨content, hcontent, h⟩ := except_bind_ok.mp h
    cases h
    exact interpolation names i content hr hcontent
  | loop l =>
    rw [Child.isRaw] at hr
    cases hr
  | compound c =>
    rw [Child.isRaw] at hr
    rw [Scoped.child] at h
    cases h
    exact compound names c hr

/-- The virtual node of one item of a loop around a lowered element: its own, that of its only child
if it is a template element, or else a fragment of its children. -/
inductive ItemNode : Element → VNode → Prop
  | own {e : Element} {v : VNode} (hk : e.kind ≠ .template) (hcode : e.code = some (.vnode v)) :
      ItemNode e v
  | only {e child : Element} {v : VNode} (hk : e.kind = .template) (hcode : e.code = none)
      (hchildren : e.children = [.element child]) (hchild : child.code = some (.vnode v)) :
      ItemNode e v
  | fragment {e : Element} (hk : e.kind = .template) (hcode : e.code = none)
      (hnone : ∀ child v, e.children = [.element child] → child.code ≠ some (.vnode v)) :
      ItemNode e (bodyFragment e)

private theorem itemNode_of_body {A : Stroke → Prop} {compounds : Bool} {e e' : Element} {v : VNode}
    (he : Emitted A compounds (.element e)) (h : Answer.body e = some (v, e')) : ItemNode e v := by
  cases he with
  | shown ht => cases ht
  | element hk hcode _ =>
    simp only [Answer.body, bne_iff_ne, ne_eq, hk, not_false_eq_true, if_true, takeVNode?, hcode]
      at h
    cases h
    exact .own hk hcode
  | template hk hcode _ hcs =>
    rw [Answer.body, if_neg (by simpa using hk)] at h
    split at h
    · rename_i child hchildren
      have hchild := hcs (.element child) (by simp [hchildren])
      cases hchild with
      | shown ht => cases ht
      | element _ hcode' _ =>
        simp only [takeVNode?, hcode'] at h
        cases h
        exact .only hk hcode hchildren hcode'
      | template _ hcode' _ _ =>
        simp only [takeVNode?, hcode'] at h
        cases h
        have hbare : { child with code := none } = child := by
          cases child
          simpa using hcode'.symm
        have hsame : { e with children := [.element child] } = e := by
          cases e
          simpa using hchildren.symm
        rw [hbare, hsame]
        refine .fragment hk hcode fun child₁ v hchildren₁ hv => ?_
        rw [hchildren] at hchildren₁
        cases hchildren₁
        rw [hcode'] at hv
        cases hv
    · rename_i hne
      cases h
      exact .fragment hk hcode fun child _ hchildren _ => hne child hchildren

private theorem admits_anything (compounds : Bool) (hs : HelperSet) :
    AdmitsShown (fun _ => True) hs compounds where
  raw _ := trivial
  literal _ := trivial
  helper _ _ := trivial
  idle := trivial
  code _ _ := trivial
  compound _ _ _ _ := trivial
  text _ := trivial
  display _ _ := trivial

/-- Nothing is asked of strokes here: all that is said of the children is that they have been
lowered. -/
theorem lowered_children {compounds : Bool} {cs cs' : List Child} (hr : areRaw compounds cs = true)
    (h : Scoped.children o cs names = .ok cs') :
    ∀ c ∈ mergeText cs', Emitted (fun _ => True) compounds c :=
  emitted_children (admits_anything compounds) (fun _ _ _ => trivial) hr h

/-- Where every site is allowed, so is what the processed props of a raw element contribute. -/
theorem processedProps_known {A : Stroke → Prop} {compounds : Bool}
    (ha : ∀ hs, Admits A hs compounds) (hallowed : ∀ site : Site, site.Allowed A o) {e : Element}
    {props : List ElementProp} (hraw : ∀ p ∈ e.props, p.isRaw compounds = true)
    (h : (otherProps e.props).mapM (Answer.prop o (.of names)) = .ok props) :
    PropsKnown A compounds o (.of names) e.kind props :=
  Ensures.of_gives (fun hs => processProps_known (ha hs) e.kind
    (fun _ hd => name_of_mem_otherProps hd) (fun p hp => hraw p (mem_of_mem_otherProps hp))
    fun site _ => hallowed site) (h ▸ gives_mapM gives_prop (otherProps e.props))

private theorem Finishes.lowered {compounds : Bool} {e e' : Element}
    (hr : e.isRaw compounds = true) (h : Finishes o names e e') :
    Emitted (fun _ => True) compounds (.element e') := by
  obtain ⟨hcode, hprops, hraw⟩ := Element.isRaw_iff.mp hr
  obtain ⟨hps, hcs, he⟩ := h
  rcases finished_ok he with ⟨hk, rfl⟩ | ⟨hk, b, -, rfl⟩
  · have hknown := processedProps_known (fun hs => (admits_anything compounds hs).toAdmits)
      (fun _ _ _ => trivial) hprops hps
    exact .template hk hcode hknown.expressions (lowered_children (areRaw_iff.mpr hraw) hcs)
  · exact .element hk rfl fun _ _ => trivial

theorem Finishes.itemNode {compounds : Bool} {e e' e'' : Element} {v : VNode}
    (hr : e.isRaw compounds = true) (h : Finishes o names e e')
    (hbody : Answer.body e' = some (v, e'')) : ItemNode e' v :=
  itemNode_of_body (h.lowered hr) hbody

/-- What a raw element becomes when its children become the given ones: it is finished around these,
and, if it has a loop directive, a loop renders the virtual node that it then has for one item. -/
theorem Becomes.lowered {compounds : Bool} {e : Element} {c : Child} {cs : List Child}
    (hr : e.isRaw compounds = true) (h : Becomes o names e c)
    (hcs : Scoped.children o e.children (Placed.inner ⟨names, e⟩) = .ok cs) :
    ∃ props e', (otherProps e.props).mapM (Answer.prop o (.of (Placed.inner ⟨names, e⟩))) =
        .ok props ∧
      Answer.finished o (.of (Placed.inner ⟨names, e⟩))
        { e with props, children := mergeText cs } = .ok e' ∧
      Emitted (fun _ => True) compounds (.element e') ∧ (c = .element e' ∨
        ∃ parts e'' v, ItemNode e' v ∧ c = .loop {
          loopOver { e with props := otherProps e.props } parts with
          children := [.element e'']
          code := some (loopCode (loopOver { e with props := otherProps e.props } parts) v) }) := by
  obtain ⟨e', hfinishes, hc⟩ := h.finishes
  have hlowered := hfinishes.lowered hr
  obtain ⟨hps, hcs', he⟩ := hfinishes
  rw [hcs] at hcs'
  cases hcs'
  refine ⟨_, e', hps, he, hlowered, hc.imp_right ?_⟩
  rintro ⟨parts, e'', v, hbody, rfl⟩
  exact ⟨parts, e'', v, itemNode_of_body hlowered hbody, rfl⟩

/-- The code that a template has for its lowered children: none, that of its only child, or a
fragment. A template element that is the only child gives its own children to the fragment. -/
inductive ChosenCode : List Child → Option RootCode → Prop
  | nothing : ChosenCode [] none
  | element {e : Element} {v : VNode} (hk : e.kind ≠ .template) (hcode : e.code = some (.vnode v)) :
      ChosenCode [.element e] (some (.vnode v))
  | loop {l : Loop} {v : VNode} (hcode : l.code = some v) :
      ChosenCode [.loop l] (some (.vnode v))
  | shown {c : Child} {t : TextChild} (ht : c.textChild? = some t) :
      ChosenCode [c] (some (.child c))
  | template {e : Element} (hk : e.kind = .template) (hcode : e.code = none) :
      ChosenCode [.element e] (some (.vnode (rootFragment e.children)))
  | fragment (cs : List Child) : ChosenCode cs (some (.vnode (rootFragment cs)))

/-- A template whose children have been lowered always has code. -/
theorem root_chosen {A : Stroke → Prop} {compounds : Bool} {r : Root}
    (hcs : ∀ c ∈ r.children, Emitted A compounds c) :
    ∃ r', Answer.root r = .ok r' ∧ ChosenCode r.children r'.code := by
  unfold Answer.root
  split
  · rename_i hnil
    rw [hnil]
    exact ⟨_, rfl, .nothing⟩
  · rename_i e hc
    rw [hc, List.forall_mem_singleton] at hcs
    rw [hc]
    cases hcs with
    | shown ht => cases ht
    | element hk hcode _ =>
      simp only [beq_iff_eq, hk, if_false, hcode]
      exact ⟨_, rfl, .element hk hcode⟩
    | template hk hcode _ _ =>
      simp only [hk, beq_self_eq_true, if_true]
      exact ⟨_, rfl, .template hk hcode⟩
  · rename_i l hc
    rw [hc, List.forall_mem_singleton] at hcs
    rw [hc]
    cases hcs with
    | shown ht => cases ht
    | loop hcode _ =>
      simp only [hcode]
      exact ⟨_, rfl, .loop hcode⟩
  · rename_i c hne hnl hc
    rw [hc, List.forall_mem_singleton] at hcs
    rw [hc]
    cases hcs with
    | shown ht => exact ⟨_, rfl, .shown ht⟩
    | element => exact (hne _ rfl).elim
    | template => exact (hne _ rfl).elim
    | loop => exact (hnl _ rfl).elim
  · exact ⟨_, rfl, .fragment _⟩

/-- A raw template that is lowered has its code from its lowered children. -/
theorem chosen_of_lower {compounds : Bool} {r r' : Root} (hr : r.isRaw compounds = true)
    (h : lower o r = .ok r') :
    ∃ cs, Scoped.children o r.children [] = .ok cs ∧ ChosenCode (mergeText cs) r'.code := by
  simp only [Root.isRaw, Bool.and_eq_true] at hr
  obtain ⟨cs, r₁, hcs, hroot, hcode⟩ := scoped_of_lower h
  obtain ⟨r₂, hroot', hchosen⟩ := root_chosen (r := { r with children := mergeText cs })
    (lowered_children hr.2 hcs)
  rw [hroot] at hroot'
  cases hroot'
  rw [hcode]
  exact ⟨cs, hcs, hchosen⟩

/-- What holds of each raw child and the one it becomes holds along the list. -/
theorem forall₂_children {compounds : Bool} {cs cs' : List Child} {R : Child → Child → Prop}
    (hR : ∀ {c c'}, c.isRaw compounds = true → Scoped.child o c names = .ok c' → R c c')
    (hr : areRaw compounds cs = true) (h : Scoped.children o cs names = .ok cs') :
    List.Forall₂ R cs cs' := by
  have hall := (List.forall₂_and_left _ _).mpr ⟨areRaw_iff.mp hr, forall₂_of_children h⟩
  exact hall.imp fun c c' hc => hR hc.1 hc.2

end Lowering

end TemplateCompiler
