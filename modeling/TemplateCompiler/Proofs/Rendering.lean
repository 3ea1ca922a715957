import TemplateCompiler.Proofs.PlacedElements

/-! The virtual nodes that a lowered template renders. Every element of the template has been
lowered with the names of the loops around it, and what it renders is rendered by the template. -/
namespace TemplateCompiler

/-- The source of a list that the virtual node renders, and the virtual node of one item. -/
def VNode.listItem? (v : VNode) : Option (Expression × VNode) :=
  match v.children with
  | some (.renderList { callee := .helper .renderList, arguments := [
      .code (.expression source),
      .code (.function { returns := some (.code (.vnode body)), .. })], .. }) => some (source, body)
  | _ => none

mutual

/-- The second virtual node is the first one, or stands among its children or the items of
its list. -/
inductive VNode.Renders : VNode → VNode → Prop
  | self {v : VNode} : v.Renders v
  | child {v w : VNode} {cs : List Child} {c : Child} (hv : v.children = some (.many cs))
      (hc : c ∈ cs) (hw : c.Renders w) : v.Renders w
  | item {v w body : VNode} {source : Expression} (hv : v.listItem? = some (source, body))
      (hw : body.Renders w) : v.Renders w

/-- The virtual node stands in the code of the child. A template element without code stands for
its children. -/
inductive Child.Renders : Child → VNode → Prop
  | element {e : Element} {v w : VNode} (hcode : e.code = some (.vnode v)) (hw : v.Renders w) :
      (Child.element e).Renders w
  | spliced {e : Element} {c : Child} {w : VNode} (hk : e.kind = .template)
      (hcode : e.code = none) (hc : c ∈ e.children) (hw : c.Renders w) :
      (Child.element e).Renders w
  | loop {l : Loop} {v w : VNode} (hcode : l.code = some v) (hw : v.Renders w) :
      (Child.loop l).Renders w

end

/-- The virtual node stands in the code of the template. -/
def Root.Renders (r : Root) (w : VNode) : Prop := ∃ v, r.code = some (.vnode v) ∧ v.Renders w

private theorem Child.Renders.not_text {c : Child} {w : VNode} (h : c.Renders w) :
    c.textChild? = none := by
  cases h <;> rfl

namespace Lowering

open LowerM

variable {o : LoweringOptions} {names : List String} {w : VNode}

private theorem mem_mergeText {c : Child} {cs : List Child} (ht : c.textChild? = none)
    (hc : c ∈ cs) :
    c ∈ mergeText cs := by
  have hfrom (run : List TextChild) : c ∈ mergeTextFrom run cs := by
    induction cs generalizing run with
    | nil => cases hc
    | cons c' cs ih =>
      rw [mergeTextFrom]
      rcases List.mem_cons.mp hc with rfl | hc
      · simp [ht]
      · cases c'.textChild? with
        | some t => exact ih hc _
        | none => exact List.mem_append_right _ (List.mem_cons_of_mem _ (ih hc _))
  unfold mergeText
  split
  · exact hfrom []
  · exact hc

private theorem childrenCode_of_mem {c : Child} {cs : List Child} (ht : c.textChild? = none)
    (hc : c ∈ cs) : childrenCode cs = some (.many cs) := by
  rcases cs with _ | ⟨c', _ | ⟨c'', cs⟩⟩
  · cases hc
  · rw [List.mem_singleton] at hc
    subst hc
    simp [childrenCode, ht]
  · rfl

private theorem finished_renders {s : Scope} {e e' : Element} (hcode : e.code = none)
    (h : Answer.finished o s e = .ok e') {c : Child} (hc : c ∈ e.children) (hw : c.Renders w) :
    (Child.element e').Renders w := by
  rcases finished_ok h with ⟨hk, rfl⟩ | ⟨hk, b, -, rfl⟩
  · exact .spliced hk hcode hc hw
  · exact .element rfl (.child (childrenCode_of_mem hw.not_text hc) hc hw)

private theorem renders_of_vnode {e : Element} {v : VNode} (hcode : e.code = some (.vnode v))
    (hw : (Child.element e).Renders w) : v.Renders w := by
  cases hw with
  | element hcode' hw =>
    rw [hcode] at hcode'
    cases hcode'
    exact hw
  | spliced _ hcode' =>
    rw [hcode] at hcode'
    cases hcode'

private theorem renders_of_template {e : Element} (hcode : e.code = none)
    (hw : (Child.element e).Renders w) : ∃ c ∈ e.children, c.Renders w := by
  cases hw with
  | element hcode' =>
    rw [hcode] at hcode'
    cases hcode'
  | spliced _ _ hc hw => exact ⟨_, hc, hw⟩

private theorem ItemNode.renders {e : Element} {v : VNode} (h : ItemNode e v)
    (hw : (Child.element e).Renders w) : v.Renders w := by
  cases h with
  | own _ hcode => exact renders_of_vnode hcode hw
  | only _ hcode hchildren hchild =>
    obtain ⟨c, hc, hw⟩ := renders_of_template hcode hw
    rw [hchildren, List.mem_singleton] at hc
    subst hc
    exact renders_of_vnode hchild hw
  | fragment _ hcode _ =>
    obtain ⟨c, hc, hw⟩ := renders_of_template hcode hw
    exact .child rfl hc hw

theorem listItem?_loopCode (l : Loop) (body : VNode) :
    (loopCode l body).listItem? = some (l.source, body) := rfl

private theorem Becomes.renders {e : Element} {c : Child} (hr : e.isRaw true = true)
    (h : Becomes o names e c) {cs : List Child}
    (hcs : Scoped.children o e.children (Placed.inner ⟨names, e⟩) = .ok cs)
    {c' : Child} (hc : c' ∈ cs) (hw : c'.Renders w) : c.Renders w := by
  obtain ⟨props, e', -, he, -, hc'⟩ := h.lowered hr hcs
  have hfinished := finished_renders (by exact (Element.isRaw_iff.mp hr).1) he
    (mem_mergeText hw.not_text hc) hw
  rcases hc' with rfl | ⟨parts, e'', v, hitem, rfl⟩
  · exact hfinished
  · exact .loop rfl (.item (listItem?_loopCode _ v) (hitem.renders hfinished))

private theorem child_placed {c c' : Child} (hr : c.isRaw true = true)
    (h : Scoped.child o c names = .ok c') : ∀ p ∈ childElements c names,
      p.element.isRaw true = true ∧
        ∃ d, Scoped.element o p.element p.names = .ok d ∧ ∀ w, d.Renders w → c'.Renders w := by
  refine Scoped.child_induction (motive := fun names c c' => ∀ p ∈ childElements c names,
    p.element.isRaw true = true ∧ ∃ d, Scoped.element o p.element p.names = .ok d ∧
      ∀ w, d.Renders w → c'.Renders w) ?_ ?_ ?_ ?_ hr h
  · simp [childElements]
  · simp [childElements]
  · simp [childElements]
  · intro names e c cs hr h hcs ih p hp
    rw [childElements, elementElements_eq, childrenElements_eq] at hp
    rcases List.mem_cons.mp hp with rfl | hp
    · exact ⟨hr, c, h, fun w hw => hw⟩
    · obtain ⟨c₁, hc₁, hp⟩ := List.mem_flatMap.mp hp
      obtain ⟨c₁', hc₁', ih⟩ := forall₂_exists_left ih hc₁
      obtain ⟨hp, d, hd, hw⟩ := ih p hp
      refine ⟨hp, d, hd, fun w hdw => ?_⟩
      exact (becomes_of_element h).renders hr hcs hc₁' (hw w hdw)

/-- The code of a template renders what its lowered children do. -/
private theorem ChosenCode.renders {cs : List Child} {code : Option RootCode}
    (h : ChosenCode cs code) {c : Child} (hc : c ∈ cs) (hw : c.Renders w) :
    ∃ v, code = some (.vnode v) ∧ v.Renders w := by
  cases h with
  | nothing => cases hc
  | element _ hcode =>
    rw [List.mem_singleton] at hc
    subst hc
    exact ⟨_, rfl, renders_of_vnode hcode hw⟩
  | loop hcode =>
    rw [List.mem_singleton] at hc
    subst hc
    cases hw with
    | loop hcode' hw =>
      rw [hcode] at hcode'
      cases hcode'
      exact ⟨_, rfl, hw⟩
  | shown ht =>
    rw [List.mem_singleton] at hc
    subst hc
    rw [hw.not_text] at ht
    cases ht
  | template _ hcode =>
    rw [List.mem_singleton] at hc
    subst hc
    obtain ⟨c, hc, hw⟩ := renders_of_template hcode hw
    exact ⟨_, rfl, .child rfl hc hw⟩
  | fragment => exact ⟨_, rfl, .child rfl hc hw⟩

/-- Every element of a template that is lowered is itself lowered with the names around it, and
what becomes of it is rendered by the template. -/
theorem lower_placed {r r' : Root} (hr : r.isRaw true = true) (h : lower o r = .ok r') :
    ∀ p ∈ r.elements, p.element.isRaw true = true ∧
      ∃ c, Becomes o p.names p.element c ∧ ∀ w, c.Renders w → r'.Renders w := by
  obtain ⟨cs, hcs, hchosen⟩ := chosen_of_lower hr h
  simp only [Root.isRaw, Bool.and_eq_true] at hr
  intro p hp
  rw [Root.elements, childrenElements_eq] at hp
  obtain ⟨c₁, hc₁, hp⟩ := List.mem_flatMap.mp hp
  obtain ⟨c₁', hc₁', hplaced⟩ := forall₂_exists_left (forall₂_children child_placed hr.2 hcs) hc₁
  obtain ⟨hp, c, hc, hw⟩ := hplaced p hp
  refine ⟨hp, c, becomes_of_element hc, fun w hcw => ?_⟩
  have hw := hw w hcw
  exact hchosen.renders (mem_mergeText hw.not_text hc₁') hw

end Lowering

end TemplateCompiler
