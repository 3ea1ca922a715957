import TemplateCompiler.Proofs.Emission

/-! A template that has been lowered can be printed: no node that is printed lacks its code. -/
namespace TemplateCompiler

/-- Where a child stands: in a list of children, or on its own. -/
inductive Place where
  | listed
  | alone

/-- What the functions among the arguments of a call return. -/
def Call.bodies (c : Call) : List Returns :=
  c.arguments.filterMap fun
    | .code (.function f) => f.returns
    | _ => none

/-- The virtual node has the child in its list of children, or in the body of a function that
renders a list. -/
inductive VNode.Holds : VNode → Place → Child → Prop
  | listed {v : VNode} {cs : List Child} {c : Child} (hv : v.children = some (.many cs))
      (hc : c ∈ cs) : Holds v .listed c
  | returned {v : VNode} {call : Call} {c : Child} (hv : v.children = some (.renderList call))
      (hc : .child c ∈ call.bodies) : Holds v .alone c
  | returnedList {v : VNode} {call : Call} {cs : List Child} {c : Child}
      (hv : v.children = some (.renderList call)) (hcs : .children cs ∈ call.bodies)
      (hc : c ∈ cs) : Holds v .listed c
  | item {v w : VNode} {call : Call} {place : Place} {c : Child}
      (hv : v.children = some (.renderList call)) (hw : .code (.vnode w) ∈ call.bodies)
      (hc : w.Holds place c) : Holds v place c

/-- The child can be reached from the code of the template. The children of a template element
without code stand in the list in which it stands. -/
inductive Root.Reaches (r : Root) : Place → Child → Prop
  | child {c : Child} (hr : r.code = some (.child c)) : Reaches r .alone c
  | vnode {v : VNode} {place : Place} {c : Child} (hr : r.code = some (.vnode v))
      (hc : v.Holds place c) : Reaches r place c
  | spliced {e : Element} {c : Child} (he : Reaches r .listed (.element e))
      (hk : e.kind = .template) (hcode : e.code = none) (hc : c ∈ e.children) :
      Reaches r .listed c
  | element {outer place : Place} {e : Element} {v : VNode} {c : Child}
      (he : Reaches r outer (.element e)) (hcode : e.code = some (.vnode v))
      (hc : v.Holds place c) : Reaches r place c
  | loop {outer place : Place} {l : Loop} {v : VNode} {c : Child}
      (hl : Reaches r outer (.loop l)) (hcode : l.code = some v) (hc : v.Holds place c) :
      Reaches r place c

/-- An element or a loop has its code. Only a template element in a list may be without. -/
def Child.HasCode (place : Place) : Child → Prop
  | .element e => e.code.isSome = true ∨ e.kind = .template ∧ place = .listed
  | .loop l => l.code.isSome = true
  | _ => True

/-- The strokes of the child at its place are among the given ones. -/
def Child.DrawnAt (c : Child) (xs : List Stroke) : Place → Prop
  | .listed => ∃ isFirst, c.listedStrokes isFirst ⊆ xs
  | .alone => c.strokes ⊆ xs

private theorem Child.DrawnAt.mono {c : Child} {xs ys : List Stroke} {place : Place}
    (h : c.DrawnAt xs place) (hxy : xs ⊆ ys) : c.DrawnAt ys place := by
  cases place with
  | listed =>
    obtain ⟨isFirst, h⟩ := h
    exact ⟨isFirst, List.Subset.trans h hxy⟩
  | alone => exact List.Subset.trans h hxy

private theorem drawn_of_mem {c : Child} {cs : List Child} (hc : c ∈ cs) (isFirst : Bool) :
    c.DrawnAt (childListStrokes isFirst cs) .listed := by
  induction cs generalizing isFirst with
  | nil => cases hc
  | cons c' cs ih =>
    rw [childListStrokes]
    rcases List.mem_cons.mp hc with rfl | hc
    · exact ⟨isFirst, List.subset_append_left _ _⟩
    · exact (ih hc _).mono (List.subset_append_right _ _)

private theorem children_subset {v : VNode} {cs : VNodeChildren} (h : v.children = some cs) :
    cs.strokes ⊆ v.strokes := by
  obtain ⟨tag, props, children, _, directives, _, _, _, _⟩ := v
  cases h
  intro x hx
  simp [VNode.strokes.eq_def, hx]

private theorem argument_subset {a : Argument} {as : List Argument} (h : a ∈ as) (isFirst : Bool) :
    a.strokes ⊆ argumentListStrokes isFirst as := by
  induction as generalizing isFirst with
  | nil => cases h
  | cons a' as ih =>
    rw [argumentListStrokes]
    rcases List.mem_cons.mp h with rfl | h
    · exact List.Subset.trans (List.subset_append_right _ _) (List.subset_append_left _ _)
    · exact List.Subset.trans (ih h false) (List.subset_append_right _ _)

private theorem body_subset {call : Call} {body : Returns} (h : body ∈ call.bodies) :
    body.strokes ⊆ call.strokes := by
  obtain ⟨a, ha, hbody⟩ := List.mem_filterMap.mp h
  split at hbody
  · rename_i f
    have hf : body.strokes ⊆ f.strokes := by
      obtain ⟨params, returns, newline, _⟩ := f
      cases hbody
      intro x hx
      simp [FunctionCode.strokes.eq_def, hx]
    have hcall : (Argument.code (.function f)).strokes ⊆ call.strokes := by
      obtain ⟨callee, arguments, _⟩ := call
      intro x hx
      have := argument_subset ha true hx
      simp [Call.strokes, this]
    rw [Argument.strokes, Code.strokes] at hcall
    exact List.Subset.trans hf hcall
  · cases hbody

private theorem VNode.Holds.drawn {v : VNode} {place : Place} {c : Child} (h : v.Holds place c) :
    c.DrawnAt v.strokes place := by
  have hbrackets {cs : List Child} : childListStrokes true cs ⊆
      .raw "[" :: childListStrokes true cs ++ [.raw "]"] := by
    intro x hx
    simp [hx]
  induction h with
  | listed hv hc =>
    have hv := children_subset hv
    rw [VNodeChildren.strokes] at hv
    exact (drawn_of_mem hc true).mono (List.Subset.trans hbrackets hv)
  | returned hv hc =>
    have hv := children_subset hv
    have hc := body_subset hc
    rw [VNodeChildren.strokes] at hv
    rw [Returns.strokes] at hc
    exact List.Subset.trans hc hv
  | returnedList hv hcs hc =>
    have hv := children_subset hv
    have hcs := body_subset hcs
    rw [VNodeChildren.strokes] at hv
    rw [Returns.strokes] at hcs
    exact (drawn_of_mem hc true).mono (List.Subset.trans hbrackets (List.Subset.trans hcs hv))
  | item hv hw hc ih =>
    have hv := children_subset hv
    have hw := body_subset hw
    rw [VNodeChildren.strokes] at hv
    rw [Returns.strokes, Code.strokes] at hw
    exact ih.mono (List.Subset.trans hw hv)

private theorem Element.code_subset {e : Element} {v : VNode} {xs : List Stroke} {place : Place}
    (hcode : e.code = some (.vnode v)) (h : (Child.element e).DrawnAt xs place) :
    v.strokes ⊆ xs := by
  cases place with
  | listed =>
    obtain ⟨isFirst, h⟩ := h
    rw [Lowering.listedStrokes_vnode hcode] at h
    exact List.Subset.trans (List.subset_append_right _ _) h
  | alone =>
    cases e
    cases hcode
    simpa [Child.DrawnAt, Child.strokes, Element.strokes, ElementCode.strokes] using h

private theorem Loop.code_subset {l : Loop} {v : VNode} {xs : List Stroke} {place : Place}
    (hcode : l.code = some v) (h : (Child.loop l).DrawnAt xs place) : v.strokes ⊆ xs := by
  cases place with
  | listed =>
    obtain ⟨isFirst, h⟩ := h
    rw [Lowering.listedStrokes_loop hcode] at h
    exact List.Subset.trans (List.subset_append_right _ _) h
  | alone =>
    cases l
    cases hcode
    simpa [Child.DrawnAt, Child.strokes, Loop.strokes] using h

private theorem Root.Reaches.drawn {r : Root} {place : Place} {c : Child} (h : r.Reaches place c) :
    c.DrawnAt r.codeStrokes place := by
  induction h with
  | child hr =>
    rw [Root.codeStrokes, hr]
    exact List.Subset.refl _
  | vnode hr hc =>
    rw [Root.codeStrokes, hr]
    exact hc.drawn
  | spliced he hk hcode hc ih =>
    obtain ⟨isFirst, ih⟩ := ih
    rw [Lowering.listedStrokes_template hk hcode] at ih
    exact (drawn_of_mem hc isFirst).mono ih
  | element he hcode hc ih => exact hc.drawn.mono (Element.code_subset hcode ih)
  | loop hl hcode hc ih => exact hc.drawn.mono (Loop.code_subset hcode ih)

private theorem Child.DrawnAt.hasCode {c : Child} {xs : List Stroke} {place : Place}
    (h : c.DrawnAt xs place) (hxs : ∀ d, Stroke.refuse d ∉ xs) : c.HasCode place := by
  cases c with
  | element e =>
    obtain ⟨tag, kind, props, cs, isSelfClosing, span, code⟩ := e
    cases code with
    | some code => exact .inl rfl
    | none =>
      have hrefuse := hxs (Print.elementRefusal span tag)
      cases place with
      | alone => exact absurd (h (by simp [Child.strokes, Element.strokes])) hrefuse
      | listed =>
        obtain ⟨isFirst, h⟩ := h
        by_cases hk : kind = .template
        · exact .inr ⟨hk, rfl⟩
        · exact absurd (h (by simp [Child.listedStrokes, Element.listedStrokes, hk])) hrefuse
  | loop l =>
    obtain ⟨source, value, key, header, cs, span, code⟩ := l
    cases code with
    | some v => rfl
    | none =>
      have hrefuse := hxs (.of .missingCode span)
      cases place with
      | alone => exact absurd (h (by simp [Child.strokes, Loop.strokes])) hrefuse
      | listed =>
        obtain ⟨isFirst, h⟩ := h
        exact absurd (h (by simp [Child.listedStrokes, Loop.strokes])) hrefuse
  | _ => trivial

/-- The stroke does not refuse to print. -/
def Stroke.Succeeds (x : Stroke) : Prop := ∀ d, x ≠ .refuse d

mutual

theorem Expression.fine_succeeds : ∀ e : Expression, Fine Stroke.Succeeds e.strokes
  | .simple s => by
    rw [Expression.strokes, Simple.strokes]
    split <;> simp [Stroke.Succeeds]
  | .compound c => by
    rw [Expression.strokes]
    exact Compound.fine_succeeds c

theorem Compound.fine_succeeds : ∀ c : Compound, Fine Stroke.Succeeds c.strokes
  | { parts := ps, .. } => by
    rw [Compound.strokes]
    exact parts_fine_succeeds ps

theorem parts_fine_succeeds : ∀ ps : List Part, Fine Stroke.Succeeds (partsStrokes ps)
  | [] => by simp [partsStrokes]
  | p :: rest => by
    rw [partsStrokes, fine_append]
    exact ⟨Part.fine_succeeds p, parts_fine_succeeds rest⟩

theorem Part.fine_succeeds : ∀ p : Part, Fine Stroke.Succeeds p.strokes
  | .simple s => by
    rw [Part.strokes, Simple.strokes]
    split <;> simp [Stroke.Succeeds]
  | .compound c => by
    rw [Part.strokes]
    exact Compound.fine_succeeds c
  | .interpolation i => by
    rw [Part.strokes]
    exact Interpolation.fine_succeeds i
  | .text t => by simp [Part.strokes, Stroke.Succeeds]
  | .raw code => by simp [Part.strokes, Stroke.Succeeds]
  | .helper h => by simp [Part.strokes, Stroke.Succeeds]

theorem Interpolation.fine_succeeds : ∀ i : Interpolation, Fine Stroke.Succeeds i.strokes
  | { content := e, .. } => by
    have he := Expression.fine_succeeds e
    simp [Interpolation.strokes, Stroke.Succeeds, he]

end

namespace Lowering

private theorem admits_succeeds (hs : HelperSet) : AdmitsShown Stroke.Succeeds hs true where
  raw _ _ h := by cases h
  literal _ _ h := by cases h
  helper _ _ _ h := by cases h
  idle _ h := by cases h
  code _ _ _ h := by cases h
  compound _ := Compound.fine_succeeds
  text _ _ h := by cases h
  display _ _ _ h := by cases h

/-- A template without code that is lowered can be printed with any options: whatever is reached
from its code has code of its own, template elements in lists of children apart. -/
theorem lower_printable {o : LoweringOptions} {r r' : Root} (hr : r.isRaw true = true)
    (h : lower o r = .ok r') :
    (∀ output : OutputOptions, ∃ p, Print.program output r' = .ok p) ∧
      ∀ place c, r'.Reaches place c → c.HasCode place := by
  have hallowed (site : Site) : site.Allowed Stroke.Succeeds o := by
    intro e _ d hd
    cases hd
  obtain ⟨hs, components, r₁, hfine, -, rfl⟩ :=
    lower_ensures (fun hs => root_fine (admits_succeeds hs) hr fun site _ => hallowed site) h
  have hcode : ∀ d, Stroke.refuse d ∉ r₁.codeStrokes := fun d hd => hfine _ hd d rfl
  refine ⟨Print.program_ok rfl fun d hd => ?_, fun place c hc => hc.drawn.hasCode hcode⟩
  refine fine_rootStrokes (admits_succeeds hs).raw ?_ (fun _ => ?_) ?_ _ hd d rfl
  · simp [Stroke.Succeeds]
  · simp [Stroke.Succeeds]
  · exact hfine

theorem itemRows_printable : ∃ r', lower {} itemRows = .ok r' ∧
    (∀ output : OutputOptions, ∃ p, Print.program output r' = .ok p) ∧
      ∀ place c, r'.Reaches place c → c.HasCode place := by
  have hok : (lower {} itemRows).isOk = true := by decide +kernel
  obtain ⟨r', h⟩ := except_ok_of_isOk hok
  exact ⟨r', h, lower_printable (by decide) h⟩

end Lowering

end TemplateCompiler
