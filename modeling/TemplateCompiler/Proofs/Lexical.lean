import TemplateCompiler.Proofs.Ensures
import TemplateCompiler.Proofs.ScopeStack

/-! The lowering of a template as a recursion over its tree, in which the names of a loop are
declared for its body and nothing else. -/
namespace TemplateCompiler

/-- Runs a step with further names declared, and forgets them afterwards. -/
def LowerM.withNames {α : Type} (names : List String) (m : LowerM α) : LowerM α := fun c =>
  match m { c with scope := c.scope.add names } with
  | .ok a d => .ok a { d with scope := c.scope }
  | .error f d => .error f { d with scope := c.scope }

namespace Lowering

/-- The loop directives among some props. -/
def loopDirectives : List ElementProp → List Directive
  | [] => []
  | .plain _ :: rest => loopDirectives rest
  | .directive d :: rest =>
    if d.name == "for" then d :: loopDirectives rest else loopDirectives rest

/-- The props that are not loop directives. -/
def otherProps : List ElementProp → List ElementProp
  | [] => []
  | .plain a :: rest => .plain a :: otherProps rest
  | .directive d :: rest =>
    if d.name == "for" then otherProps rest else .directive d :: otherProps rest

theorem length_loopDirectives_le (ps : List ElementProp) :
    (loopDirectives ps).length ≤ ps.length := by
  induction ps with
  | nil => exact Nat.le_refl 0
  | cons p rest ih =>
    cases p with
    | plain a => exact Nat.le_succ_of_le ih
    | directive d =>
      simp only [loopDirectives]
      split
      · exact Nat.succ_le_succ ih
      · exact Nat.le_succ_of_le ih

theorem takeDirective?_none {props : List ElementProp} (h : loopDirectives props = []) :
    takeDirective? "for" props = none ∧ otherProps props = props := by
  induction props with
  | nil => exact ⟨rfl, rfl⟩
  | cons p rest ih =>
    cases p with
    | plain a =>
      obtain ⟨ht, ho⟩ := ih h
      simp [takeDirective?, otherProps, ht, ho]
    | directive d =>
      simp only [loopDirectives] at h
      split at h
      · cases h
      · rename_i hd
        obtain ⟨ht, ho⟩ := ih h
        simp [takeDirective?, otherProps, ht, ho, hd]

theorem takeDirective?_some {props : List ElementProp} {d : Directive} {ds : List Directive}
    (h : loopDirectives props = d :: ds) : ∃ props', takeDirective? "for" props = some (d, props') ∧
      loopDirectives props' = ds ∧ otherProps props' = otherProps props := by
  induction props with
  | nil => cases h
  | cons p rest ih =>
    cases p with
    | plain a =>
      obtain ⟨props', ht, hl, ho⟩ := ih h
      exact ⟨.plain a :: props', by simp [takeDirective?, ht], hl, by simp [otherProps, ho]⟩
    | directive d' =>
      simp only [loopDirectives] at h
      split at h
      · rename_i hd
        cases h
        exact ⟨rest, by simp [takeDirective?, hd], rfl, by simp [otherProps, hd]⟩
      · rename_i hd
        obtain ⟨props', ht, hl, ho⟩ := ih h
        exact ⟨.directive d' :: props', by simp [takeDirective?, hd, ht],
          by simp [loopDirectives, hd, hl], by simp [otherProps, hd, ho]⟩

theorem name_of_mem_otherProps {d : Directive} {ps : List ElementProp}
    (h : .directive d ∈ otherProps ps) : d.name ≠ "for" := by
  induction ps with
  | nil => cases h
  | cons p ps ih =>
    cases p with
    | plain a =>
      rcases List.mem_cons.mp h with h | h
      · cases h
      · exact ih h
    | directive d' =>
      rw [otherProps] at h
      split at h
      · exact ih h
      · rename_i hd'
        rcases List.mem_cons.mp h with h | h
        · cases h
          simpa using hd'
        · exact ih h

theorem mem_otherProps {d : Directive} {ps : List ElementProp} (h : .directive d ∈ ps)
    (hn : d.name ≠ "for") : .directive d ∈ otherProps ps := by
  induction ps with
  | nil => cases h
  | cons p ps ih =>
    rcases List.mem_cons.mp h with rfl | hd
    · rw [otherProps, if_neg (by simpa using hn)]
      exact List.mem_cons_self
    · cases p with
      | plain a => exact List.mem_cons_of_mem _ (ih hd)
      | directive d' =>
        rw [otherProps]
        split
        · exact ih hd
        · exact List.mem_cons_of_mem _ (ih hd)

theorem mem_of_mem_otherProps {p : ElementProp} {ps : List ElementProp} (h : p ∈ otherProps ps) :
    p ∈ ps := by
  induction ps with
  | nil => cases h
  | cons q ps ih =>
    have hcons (h : p ∈ q :: otherProps ps) : p ∈ q :: ps := by
      rcases List.mem_cons.mp h with rfl | h
      · exact List.mem_cons_self
      · exact List.mem_cons_of_mem _ (ih h)
    cases q with
    | plain a => exact hcons h
    | directive d =>
      rw [otherProps] at h
      split at h
      · exact List.mem_cons_of_mem _ (ih h)
      · exact hcons h

namespace Lexical

/-- Wraps a loop around a body for each directive, the first outermost. The source of a loop does
not see its names. -/
def wrap (e : Element) (body : LowerM Child) : List Directive → LowerM Child
  | [] => body
  | d :: ds =>
    match headerOf d with
    | .error r => LowerM.refuse r
    | .ok parts => do
      let source ← parts.source.process
      let l := loopOver e { parts with source }
      let inner ← LowerM.withNames l.aliasNames (wrap e body ds)
      let l' ← finishLoop { l with children := [inner] }
      return .loop l'

/-- Lowers an element without loop directives, given how to lower its children. -/
def plain (e : Element) (children : LowerM (List Child)) : LowerM Child := do
  let props ← e.props.mapM processProp
  let cs ← children
  let e' ← finishElement standardDirectives { e with props, children := mergeText cs }
  return .element e'

mutual

def child : Child → LowerM Child
  | .element e => element e
  | .text t => return .text t
  | .interpolation i => do
    let content ← i.content.process
    LowerM.helper .toDisplayString
    return .interpolation { i with content }
  | .loop l => loop l
  | .compound c => return .compound c

def element : Element → LowerM Child
  | { tag, kind, props, children := cs, isSelfClosing, span, code } =>
    let e : Element :=
      { tag, kind, props := otherProps props, children := cs, isSelfClosing, span, code }
    wrap e (plain e (children cs)) (loopDirectives props)

/-- Lowers a loop that stands in the template itself. -/
def loop : Loop → LowerM Child
  | { source, value, key, header, children := cs, span, code } => do
    let cs' ← children cs
    return .loop { source, value, key, header, children := mergeText cs', span, code }

/-- Lowers a list of children from left to right. -/
def children : List Child → LowerM (List Child)
  | [] => return []
  | c :: rest => do
    let c' ← child c
    let rest' ← children rest
    return c' :: rest'

end

/-- Lowers the children of a template and chooses what it returns. -/
def root (r : Root) : LowerM Root := do
  let cs ← children r.children
  chooseCode { r with children := mergeText cs }

def lower (options : LoweringOptions) (r : Root) : Except Fault Root :=
  match root r { options } with
  | .error f _ => .error f
  | .ok r' c =>
    .ok { r' with
      helpers := r'.helpers ++ c.helpers.toList
      components := r'.components ++ c.components
      transformed := true }

theorem element_eq (e : Element) : element e =
    wrap { e with props := otherProps e.props }
      (plain { e with props := otherProps e.props } (children e.children))
      (loopDirectives e.props) := by
  cases e
  rw [element]

theorem loop_eq (l : Loop) : loop l = do
    let cs ← children l.children
    return .loop { l with children := mergeText cs } := by
  cases l
  rw [loop]

/-- Children are lowered one after the other. -/
theorem children_eq (cs : List Child) : children cs = cs.mapM child := by
  induction cs with
  | nil => rw [children, List.mapM_nil]
  | cons c cs ih => rw [children, List.mapM_cons, ih]

end Lexical

end Lowering

open LowerM

section
variable {α : Type} {o : LoweringOptions} {s : Scope} {m : LowerM α} {names : List String}

private theorem withNames_run {x : Except Fault α} {ns : List Note}
    (hx : ∀ c : Context, c.options = o → c.scope = s.add names → m c = answer x (c.noteAll ns))
    (c : Context) (ho : c.options = o) (hs : c.scope = s) :
    withNames names m c = answer x (c.noteAll ns) := by
  subst hs
  simp only [withNames, hx { c with scope := c.scope.add names } ho rfl]
  cases x <;> rfl

/-- A step under further names leaves the scope as it was. -/
theorem LowerM.Gives.withNames {x : Except Fault α} {components : List String}
    (hm : Gives o (s.add names) m x components) :
    Gives o s (withNames names m) x components := by
  obtain ⟨ns, hx, hns⟩ := hm
  exact ⟨ns, withNames_run hx, hns⟩

theorem LowerM.Ensures.withNames {hs : HelperSet} {q : α → Prop}
    (hm : Ensures o (s.add names) hs m q) : Ensures o s hs (withNames names m) q := by
  obtain ⟨x, ns, hx, hq⟩ := hm
  exact ⟨x, ns, withNames_run hx, hq⟩

end

private theorem LowerM.Registers.withNames {α : Type} {m : LowerM α} (hm : Registers m)
    (names : List String) : Registers (withNames names m) := fun o s =>
  let ⟨x, components, hx⟩ := hm o (s.add names)
  ⟨x, components, hx.withNames⟩

namespace Lowering.Lexical

theorem registers_wrap (e : Element) {body : LowerM Child} (hb : Registers body)
    (ds : List Directive) : Registers (wrap e body ds) := by
  induction ds with
  | nil => exact hb
  | cons d ds ih =>
    unfold wrap
    split
    · exact registers_refuse _
    · exact (registers_simple _).bind fun _ => (ih.withNames _).bind fun _ =>
        (registers_finishLoop _).bind fun _ => registers_pure _

theorem registers_plain (e : Element) {cs : LowerM (List Child)} (hc : Registers cs) :
    Registers (plain e cs) :=
  (registers_processProps _).bind fun _ => hc.bind fun _ =>
    (registers_finishElement _).bind fun _ => registers_pure _

/-- Lowering a child does nothing to the state but register. -/
theorem registers_child (c : Child) : Registers (child c) := by
  induction c using Child.induction with
  | element e ih =>
    rw [child, element_eq, children_eq]
    exact registers_wrap _ (registers_plain _ (registers_mapM ih)) _
  | text t =>
    rw [child]
    exact registers_pure _
  | interpolation i =>
    rw [child]
    exact (registers_expression i.content).bind fun _ =>
      (registers_helper _).bind fun _ => registers_pure _
  | loop l ih =>
    rw [child, loop_eq, children_eq]
    exact (registers_mapM ih).bind fun _ => registers_pure _
  | compound c =>
    rw [child]
    exact registers_pure _

theorem registers_children (cs : List Child) : Registers (children cs) := by
  rw [children_eq]
  exact registers_mapM fun c _ => registers_child c

/-- What lowering ensures of each child it ensures of the list. -/
theorem ensures_children {o : LoweringOptions} {s : Scope} {hs : HelperSet}
    {q : Child → Child → Prop} {cs : List Child}
    (h : ∀ c ∈ cs, Ensures o s hs (child c) (q c)) :
    Ensures o s hs (children cs) (List.Forall₂ q cs) := by
  rw [children_eq]
  exact ensures_mapM h

end Lowering.Lexical

end TemplateCompiler
