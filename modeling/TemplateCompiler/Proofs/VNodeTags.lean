import TemplateCompiler.Proofs.Rendering

/-! The tags of the virtual nodes in a lowered template. The elements of a template that are no
template elements have one virtual node each, in document order, and besides those there are only
fragments. -/
namespace TemplateCompiler

/-- Whether the tag is that of an element and not a helper of the runtime. -/
def VNodeTag.isOfElement : VNodeTag → Bool
  | helper _ => false
  | _ => true

mutual

/-- The tags of the virtual nodes that a child prints, in order. A template element without code
stands for its children. -/
def Child.tags : Child → List VNodeTag
  | .element e => e.tags
  | .text _ => []
  | .interpolation _ => []
  | .loop l => l.tags
  | .compound _ => []

def Element.tags : Element → List VNodeTag
  | { children := cs, code := c, .. } =>
    match c with
    | some ec => ec.tags
    | none => childListTags cs

def ElementCode.tags : ElementCode → List VNodeTag
  | .vnode v => v.tags
  | .simple _ => []

def Loop.tags : Loop → List VNodeTag
  | { code := c, .. } =>
    match c with
    | some v => v.tags
    | none => []

def childListTags : List Child → List VNodeTag
  | [] => []
  | c :: rest => c.tags ++ childListTags rest

def VNode.tags : VNode → List VNodeTag
  | { tag := t, props := p, children := c, directives := d, .. } =>
    t :: (match p with
      | some p => p.tags
      | none => []) ++
    (match c with
      | some c => c.tags
      | none => []) ++
    (match d with
      | some d => d.tags
      | none => [])

def PropsCode.tags : PropsCode → List VNodeTag
  | .object o => o.tags
  | .call c => c.tags
  | .simple _ => []

def VNodeChildren.tags : VNodeChildren → List VNodeTag
  | .many cs => childListTags cs
  | .single _ => []
  | .renderList c => c.tags

def Code.tags : Code → List VNodeTag
  | .vnode v => v.tags
  | .call c => c.tags
  | .object o => o.tags
  | .array a => a.tags
  | .function f => f.tags
  | .expression _ => []

def Call.tags : Call → List VNodeTag
  | { arguments := as, .. } => argumentListTags as

def argumentListTags : List Argument → List VNodeTag
  | [] => []
  | a :: rest => a.tags ++ argumentListTags rest

def Argument.tags : Argument → List VNodeTag
  | .raw _ => []
  | .helper _ => []
  | .code c => c.tags
  | .child c => c.tags
  | .children cs => childListTags cs

def ObjectCode.tags : ObjectCode → List VNodeTag
  | { properties := ps, .. } => propertyListTags ps

def propertyListTags : List Property → List VNodeTag
  | [] => []
  | p :: rest => p.tags ++ propertyListTags rest

def Property.tags : Property → List VNodeTag
  | { value := v, .. } => v.tags

def ArrayCode.tags : ArrayCode → List VNodeTag
  | { elements := xs, .. } => itemListTags xs

def itemListTags : List ArrayItem → List VNodeTag
  | [] => []
  | x :: rest => x.tags ++ itemListTags rest

def ArrayItem.tags : ArrayItem → List VNodeTag
  | .raw _ => []
  | .helper _ => []
  | .code c => c.tags

def FunctionCode.tags : FunctionCode → List VNodeTag
  | { returns := r, .. } =>
    match r with
    | some r => r.tags
    | none => []

def Returns.tags : Returns → List VNodeTag
  | .child c => c.tags
  | .children cs => childListTags cs
  | .code c => c.tags

end

/-- The tags of the virtual nodes that the template prints, in order. -/
def Root.tags (r : Root) : List VNodeTag :=
  match r.code with
  | some (.vnode v) => v.tags
  | some (.child c) => c.tags
  | none => []

private theorem childListTags_eq (cs : List Child) : childListTags cs = cs.flatMap Child.tags := by
  induction cs with
  | nil => rw [childListTags, List.flatMap_nil]
  | cons c cs ih => rw [childListTags, ih, List.flatMap_cons]

private theorem argumentListTags_eq (as : List Argument) :
    argumentListTags as = as.flatMap Argument.tags := by
  induction as with
  | nil => rw [argumentListTags, List.flatMap_nil]
  | cons a as ih => rw [argumentListTags, ih, List.flatMap_cons]

private theorem propertyListTags_eq (ps : List Property) :
    propertyListTags ps = ps.flatMap fun p => p.value.tags := by
  induction ps with
  | nil => rw [propertyListTags, List.flatMap_nil]
  | cons p ps ih =>
    rw [propertyListTags, ih, List.flatMap_cons]
    cases p
    rw [Property.tags]

private theorem itemListTags_eq (xs : List ArrayItem) :
    itemListTags xs = xs.flatMap ArrayItem.tags := by
  induction xs with
  | nil => rw [itemListTags, List.flatMap_nil]
  | cons x xs ih => rw [itemListTags, ih, List.flatMap_cons]

private theorem Element.tags_vnode {e : Element} {v : VNode} (h : e.code = some (.vnode v)) :
    e.tags = v.tags := by
  cases e
  cases h
  rw [Element.tags, ElementCode.tags]

private theorem Element.tags_spliced {e : Element} (h : e.code = none) :
    e.tags = e.children.flatMap Child.tags := by
  cases e
  cases h
  rw [Element.tags, childListTags_eq]

private theorem Loop.tags_vnode {l : Loop} {v : VNode} (h : l.code = some v) : l.tags = v.tags := by
  cases l
  cases h
  rw [Loop.tags]

private theorem VNode.tags_eq (v : VNode) : v.tags =
    v.tag :: v.props.toList.flatMap PropsCode.tags ++
      v.children.toList.flatMap VNodeChildren.tags ++
      v.directives.toList.flatMap ArrayCode.tags := by
  obtain ⟨tag, props, children, _, directives, _, _, _, _⟩ := v
  rw [VNode.tags.eq_def]
  cases props <;> cases children <;> cases directives <;> simp

private theorem Child.tags_text {c : Child} {t : TextChild} (h : c.textChild? = some t) : c.tags =
    [] := by
  cases c <;> cases h <;> rw [Child.tags]

namespace Lowering

variable {o : LoweringOptions} {s : Scope} {names : List String}

private theorem tags_gather (first value : Code) :
    (gather first value).tags = first.tags ++ value.tags := by
  have hpair : (Code.array { elements := [.code first, .code value] }).tags =
      first.tags ++ value.tags := by
    simp [Code.tags, ArrayCode.tags, itemListTags_eq, ArrayItem.tags]
  cases first with
  | array a =>
    obtain ⟨xs, span⟩ := a
    simp [gather, Code.tags, ArrayCode.tags, itemListTags_eq, ArrayItem.tags]
  | _ => exact hpair

/-- No property has a virtual node in its value. -/
def Tagless (ps : List Property) : Prop := ∀ p ∈ ps, p.value.tags = []

private theorem Tagless.append {ps qs : List Property} (hp : Tagless ps) (hq : Tagless qs) :
    Tagless (ps ++ qs) :=
  List.forall_mem_append.mpr ⟨hp, hq⟩

private theorem Tagless.gatherUnder {ps : List Property} {value : Code} (hps : Tagless ps)
    (hv : value.tags = []) (name : String) : Tagless (gatherUnder name value ps) := by
  induction ps with
  | nil => exact hps
  | cons p ps ih =>
    obtain ⟨hp, hps⟩ := List.forall_mem_cons.mp hps
    rw [Lowering.gatherUnder]
    split
    · refine List.forall_mem_cons.mpr ⟨?_, hps⟩
      rw [tags_gather, hp, hv, List.append_nil]
    · exact List.forall_mem_cons.mpr ⟨hp, ih hps⟩

private theorem Tagless.addProperty {kept : List Property} {p : Property} (hk : Tagless kept)
    (hp : p.value.tags = []) : Tagless (addProperty kept p) := by
  have happend : Tagless (kept ++ [p]) := hk.append (List.forall_mem_singleton.mpr hp)
  unfold Lowering.addProperty
  split
  · exact happend
  · split
    · split
      · exact hk.gatherUnder hp _
      · exact hk
    · exact happend

private theorem Tagless.mergeProperties {ps : List Property} (h : Tagless ps) :
    Tagless (mergeProperties ps) := by
  have hfold (kept : List Property) (hk : Tagless kept) :
      Tagless (ps.foldl Lowering.addProperty kept) := by
    induction ps generalizing kept with
    | nil => exact hk
    | cons p ps ih =>
      obtain ⟨hp, hps⟩ := List.forall_mem_cons.mp h
      exact ih hps _ (hk.addProperty hp)
  exact hfold [] (List.forall_mem_nil _)

private theorem tagless_contribution {e : Element} {d : Directive} {c : Contribution}
    (h : Answer.contribution o s e d = .ok c) : Tagless c.properties := by
  intro p hp
  obtain ⟨x, hx⟩ := contribution_value h p hp
  rw [hx, Code.tags]

/-- Nothing that has been gathered holds a virtual node. -/
structure PropsBuilder.Tagless (b : PropsBuilder) : Prop where
  properties : Lowering.Tagless b.properties
  merged : ∀ a ∈ b.merged, a.tags = []
  runtime : ∀ x ∈ b.runtime, x.tags = []

private theorem tags_segment {ps : List Property} (h : Tagless ps) :
    (PropsBuilder.segment ps).tags = [] := by
  rw [PropsBuilder.segment, Argument.tags, Code.tags, ObjectCode.tags, propertyListTags_eq,
    List.flatMap_eq_nil_iff]
  exact h.mergeProperties

private theorem PropsBuilder.Tagless.close {b : PropsBuilder} (h : b.Tagless) :
    b.close.Tagless := by
  unfold PropsBuilder.close
  split
  · exact h
  · exact ⟨List.forall_mem_nil _, List.forall_mem_append.mpr
      ⟨h.merged, List.forall_mem_singleton.mpr (tags_segment h.properties)⟩, h.runtime⟩

private theorem PropsBuilder.Tagless.addProp {e : Element} {b b' : PropsBuilder} {p : ElementProp}
    (hb : b.Tagless) (h : Answer.addProp o s e b p = .ok b') : b'.Tagless := by
  cases adds_of_ok h with
  | plain a =>
    refine ⟨hb.properties.append (List.forall_mem_singleton.mpr ?_), hb.merged, hb.runtime⟩
    rw [attributeProperty, Code.tags]
  | object =>
    have hc := hb.close
    refine ⟨hc.properties, List.forall_mem_append.mpr ⟨hc.merged, ?_⟩, hc.runtime⟩
    exact List.forall_mem_singleton.mpr (by rw [Argument.tags, Code.tags])
  | @contribution d r _ hr =>
    refine ⟨hb.properties.append (tagless_contribution hr), hb.merged, ?_⟩
    refine List.forall_mem_append.mpr ⟨hb.runtime, ?_⟩
    -- a runtime directive holds a helper and the expression of the directive
    cases r.runtime <;> cases d.exp <;>
      simp [ArrayItem.tags, Code.tags, ArrayCode.tags, itemListTags_eq]

private theorem tags_props {b : PropsBuilder} (h : b.Tagless) :
    (Answer.props b).toList.flatMap PropsCode.tags = [] := by
  have hcall (x : Helper) {as : List Argument} (has : ∀ a ∈ as, a.tags = []) :
      (Answer.callOf x as).tags = [] := by
    rw [Answer.callOf, PropsCode.tags, Call.tags, argumentListTags_eq]
    exact List.flatMap_eq_nil_iff.mpr has
  unfold Answer.props
  split
  · simpa using hcall _ h.close.merged
  · split
    · rfl
    · split
      · simpa using hcall .normalizeProps
          (List.forall_mem_singleton.mpr (tags_segment h.properties))
      · have hnormal : Tagless ((mergeProperties b.properties).map Answer.normalized) := by
          refine List.forall_mem_map.mpr fun p hp => ?_
          have hp := h.properties.mergeProperties p hp
          unfold Answer.normalized
          split
          · exact hp
          · split
            · exact hp
            · simp [Code.tags, Call.tags, argumentListTags_eq, Argument.tags, hp]
        rw [Option.toList_some, List.flatMap_singleton, PropsCode.tags, ObjectCode.tags,
          propertyListTags_eq]
        exact List.flatMap_eq_nil_iff.mpr hnormal

private theorem tags_directives {b : PropsBuilder} (h : b.Tagless) :
    (Answer.build b).directives.toList.flatMap ArrayCode.tags = [] := by
  unfold Answer.build
  dsimp only
  split
  · rfl
  · rw [Option.toList_some, List.flatMap_singleton, ArrayCode.tags, itemListTags_eq]
    exact List.flatMap_eq_nil_iff.mpr h.runtime

private theorem tags_mergeText (cs : List Child) :
    (mergeText cs).flatMap Child.tags = cs.flatMap Child.tags := by
  have hrun (run : List TextChild) : (joinRun run).flatMap Child.tags = [] := by
    unfold joinRun
    split
    · rfl
    · rename_i t
      cases t <;> simp [childOfText, Child.tags]
    · simp [Child.tags]
  have hfrom (run : List TextChild) :
      (mergeTextFrom run cs).flatMap Child.tags = cs.flatMap Child.tags := by
    induction cs generalizing run with
    | nil => exact hrun run
    | cons c cs ih =>
      rw [mergeTextFrom]
      split
      · rename_i t ht
        rw [ih, List.flatMap_cons, Child.tags_text ht, List.nil_append]
      · rw [List.flatMap_append, hrun, List.flatMap_cons, ih, List.nil_append, List.flatMap_cons]
  unfold mergeText
  split
  · exact hfrom []
  · rfl

private theorem tags_childrenCode (cs : List Child) :
    (childrenCode cs).toList.flatMap VNodeChildren.tags = cs.flatMap Child.tags := by
  unfold childrenCode
  split
  · rfl
  · split
    · rename_i t ht
      simp [VNodeChildren.tags, Child.tags_text ht]
    · simp [VNodeChildren.tags, childListTags_eq]
  · simp [VNodeChildren.tags, childListTags_eq]

/-- The tag of the element's own virtual node; a template element has none. -/
def ownTag (o : LoweringOptions) (e : Element) : List VNodeTag :=
  if e.kind == .template then [] else [Answer.tag o e]

/-- The tags of elements among some tags. -/
def ofElements (ts : List VNodeTag) : List VNodeTag := ts.filter VNodeTag.isOfElement

@[simp] theorem ofElements_nil : ofElements [] = [] := rfl

private theorem ofElements_append (ts us : List VNodeTag) :
    ofElements (ts ++ us) = ofElements ts ++ ofElements us :=
  List.filter_append ..

private theorem ofElements_ownTag (e : Element) : ofElements (ownTag o e) = ownTag o e := by
  have htag : (Answer.tag o e).isOfElement = true := by
    unfold Answer.tag
    split
    · rfl
    · split <;> rfl
  unfold ownTag
  split <;> simp [ofElements, htag]

private theorem tags_finished {e e' : Element} (hcode : e.code = none)
    (h : Answer.finished o s e = .ok e') :
    e'.tags = ownTag o e ++ e.children.flatMap Child.tags := by
  rcases finished_ok h with ⟨hk, rfl⟩ | ⟨hk, b, hb, rfl⟩
  · rw [Element.tags_spliced hcode, ownTag, hk]
    rfl
  · have hempty : PropsBuilder.Tagless {} := ⟨by simp [Tagless], by simp, by simp⟩
    have hb : b.Tagless := foldlM_ok (fun p _ b b' hb h => hb.addProp h) hempty hb
    have hown : ownTag o e = [Answer.tag o e] := by simp [ownTag, hk]
    rw [Element.tags_vnode rfl, VNode.tags_eq, Answer.vnode, tags_directives hb, hown,
      Answer.build, tags_props hb, tags_childrenCode, List.append_nil]

private theorem tags_bodyFragment (e : Element) :
    ofElements (bodyFragment e).tags = ofElements (e.children.flatMap Child.tags) := by
  have hkey : ∀ value ∈ templateKey? e, value.tags = [] := by
    intro value hvalue
    unfold templateKey? at hvalue
    split at hvalue
    · cases hvalue
    · cases hvalue
      rw [attributeProperty, Code.tags]
    · obtain ⟨exp, -, rfl⟩ := Option.map_eq_some_iff.mp hvalue
      rw [Code.tags]
  rw [VNode.tags_eq]
  cases hvalue : templateKey? e with
  | none =>
    simp [bodyFragment, hvalue, VNodeChildren.tags, childListTags_eq, ofElements,
      VNodeTag.isOfElement]
  | some value =>
    simp [bodyFragment, hvalue, VNodeChildren.tags, childListTags_eq, ofElements,
      VNodeTag.isOfElement, PropsCode.tags, ObjectCode.tags, propertyListTags_eq,
      hkey value hvalue]

private theorem ItemNode.tags {e : Element} {v : VNode} (h : ItemNode e v) :
    ofElements v.tags = ofElements e.tags := by
  cases h with
  | own _ hcode => rw [Element.tags_vnode hcode]
  | only _ hcode hchildren hchild =>
    rw [Element.tags_spliced hcode, hchildren, List.flatMap_singleton, Child.tags,
      Element.tags_vnode hchild]
  | fragment _ hcode _ =>
    rw [Element.tags_spliced hcode]
    exact tags_bodyFragment e

private theorem tags_loopCode (l : Loop) (v : VNode) :
    ofElements (loopCode l v).tags = ofElements v.tags := by
  rw [VNode.tags_eq]
  simp [loopCode, VNodeChildren.tags, Call.tags, argumentListTags_eq, Argument.tags, Code.tags,
    FunctionCode.tags.eq_def, Returns.tags, ofElements, VNodeTag.isOfElement]

private theorem Becomes.tags {e : Element} {c : Child} (hr : e.isRaw true = true)
    (h : Becomes o names e c) {cs : List Child}
    (hcs : Scoped.children o e.children (Placed.inner ⟨names, e⟩) = .ok cs) :
    ofElements c.tags = ownTag o e ++ ofElements (cs.flatMap Child.tags) := by
  obtain ⟨props, e', -, he, -, hc⟩ := h.lowered hr hcs
  have hfinished : ofElements e'.tags = ownTag o e ++ ofElements (cs.flatMap Child.tags) := by
    rw [tags_finished (by exact (Element.isRaw_iff.mp hr).1) he, ofElements_append,
      ofElements_ownTag, tags_mergeText]
    rfl
  rcases hc with rfl | ⟨parts, e'', v, hitem, rfl⟩
  · rw [Child.tags, hfinished]
  · rw [Child.tags, Loop.tags_vnode rfl, tags_loopCode, hitem.tags, hfinished]

private theorem tags_children {cs cs' : List Child}
    (h : List.Forall₂ (fun c c' : Child =>
      ofElements c'.tags = (childElements c names).flatMap fun p => ownTag o p.element) cs cs') :
    ofElements (cs'.flatMap Child.tags) =
      (childrenElements cs names).flatMap fun p => ownTag o p.element := by
  rw [childrenElements_eq, List.flatMap_assoc, ofElements, List.filter_flatMap]
  exact forall₂_flatMap h

private theorem tags_child {c c' : Child} (hr : c.isRaw true = true)
    (h : Scoped.child o c names = .ok c') :
    ofElements c'.tags = (childElements c names).flatMap fun p => ownTag o p.element := by
  refine Scoped.child_induction (motive := fun names c c' => ofElements c'.tags =
    (childElements c names).flatMap fun p => ownTag o p.element) ?_ ?_ ?_ ?_ hr h
  · simp [childElements, Child.tags]
  · simp [childElements, Child.tags]
  · simp [childElements, Child.tags]
  · intro names e c cs hr h hcs ih
    rw [(becomes_of_element h).tags hr hcs, tags_children ih, childElements, elementElements_eq,
      List.flatMap_cons]
    rfl

private theorem tags_rootFragment (cs : List Child) :
    ofElements (rootFragment cs).tags = ofElements (cs.flatMap Child.tags) := by
  rw [VNode.tags_eq]
  simp [rootFragment, VNodeChildren.tags, childListTags_eq, ofElements, VNodeTag.isOfElement]

private theorem ChosenCode.tags {cs : List Child} {r : Root} (h : ChosenCode cs r.code) :
    ofElements r.tags = ofElements (cs.flatMap Child.tags) := by
  unfold Root.tags
  generalize r.code = code at h
  cases h with
  | nothing => rfl
  | element _ hcode => rw [List.flatMap_singleton, Child.tags, Element.tags_vnode hcode]
  | loop hcode => rw [List.flatMap_singleton, Child.tags, Loop.tags_vnode hcode]
  | shown => rw [List.flatMap_singleton]
  | template _ hcode =>
    rw [List.flatMap_singleton, Child.tags, Element.tags_spliced hcode]
    exact tags_rootFragment _
  | fragment => exact tags_rootFragment cs

/-- The virtual nodes that a lowered template prints are fragments and those of the elements that
are no template elements, one for each and in document order. -/
theorem tags_lower {r r' : Root} (hr : r.isRaw true = true) (h : lower o r = .ok r') :
    ofElements r'.tags = r.elements.flatMap fun p => ownTag o p.element := by
  obtain ⟨cs, hcs, hchosen⟩ := chosen_of_lower hr h
  simp only [Root.isRaw, Bool.and_eq_true] at hr
  rw [hchosen.tags, tags_mergeText, tags_children (forall₂_children tags_child hr.2 hcs)]
  rfl

end Lowering

end TemplateCompiler
