import TemplateCompiler.Proofs.Emission

/-! Lexical scoping: the code of a template is given by a recursion over its tree that passes down
the names declared by the enclosing loops. No state is involved; an expression is processed where
exactly those names are in scope. -/
namespace TemplateCompiler.Lowering

open LowerM

namespace Scoped

variable (o : LoweringOptions)

/-- Wraps a loop around a body for each directive, the first outermost. The source of a loop sees
the names from outside, its body also those of the loop. -/
def wrap (e : Element) (body : List String → Except Fault Child) :
    List Directive → List String → Except Fault Child
  | [], names => body names
  | d :: ds, names =>
    match headerOf d with
    | .error r => .error (.refused r)
    | .ok parts => do
      let source ← Answer.simple o (.of names) parts.source
      let l := loopOver e { parts with source }
      let inner ← wrap e body ds (names ++ l.aliasNames)
      let l' ← Answer.finishedLoop { l with children := [inner] }
      return .loop l'

/-- An element without loop directives, given its children. -/
def plain (e : Element) (names : List String) (children : Except Fault (List Child)) :
    Except Fault Child := do
  let props ← e.props.mapM (Answer.prop o (.of names))
  let cs ← children
  let e' ← Answer.finished o (.of names) { e with props, children := mergeText cs }
  return .element e'

mutual

/-- A child in which the given names are declared. -/
def child : Child → List String → Except Fault Child
  | .element e, names => element e names
  | .text t, _ => .ok (.text t)
  | .interpolation i, names => do
    let content ← Answer.expression o (.of names) i.content
    return .interpolation { i with content }
  | .loop l, names => loop l names
  | .compound c, _ => .ok (.compound c)

/-- An element; everything in it but the sources of its loops sees the names of all of them. -/
def element : Element → List String → Except Fault Child
  | { tag, kind, props, children := cs, isSelfClosing, span, code }, names =>
    let e : Element :=
      { tag, kind, props := otherProps props, children := cs, isSelfClosing, span, code }
    wrap o e (fun names => plain o e names (children cs names)) (loopDirectives props) names

/-- A loop that stands in the template itself. -/
def loop : Loop → List String → Except Fault Child
  | { source, value, key, header, children := cs, span, code }, names => do
    let cs' ← children cs names
    return .loop { source, value, key, header, children := mergeText cs', span, code }

/-- A list of children, each with the same names. -/
def children : List Child → List String → Except Fault (List Child)
  | [], _ => .ok []
  | c :: rest, names => do
    let c' ← child c names
    let rest' ← children rest names
    return c' :: rest'

end

/-- A whole template, around which no name is declared. -/
def lower (r : Root) : Except Fault Root := do
  let cs ← children o r.children []
  Answer.root { r with children := mergeText cs }

end Scoped

variable {o : LoweringOptions}

theorem Scoped.element_eq (e : Element) (names : List String) : Scoped.element o e names =
    Scoped.wrap o { e with props := otherProps e.props }
      (fun names => Scoped.plain o { e with props := otherProps e.props } names
        (Scoped.children o e.children names)) (loopDirectives e.props) names := by
  cases e
  rw [Scoped.element]

theorem Scoped.loop_eq (l : Loop) (names : List String) : Scoped.loop o l names = do
    let cs ← Scoped.children o l.children names
    return .loop { l with children := mergeText cs } := by
  cases l
  rw [Scoped.loop]

/-- Children see the same names and are lowered one after the other. -/
theorem Scoped.children_eq (cs : List Child) (names : List String) :
    Scoped.children o cs names = cs.mapM (Scoped.child o · names) := by
  induction cs with
  | nil =>
    rw [Scoped.children, List.mapM_nil]
    rfl
  | cons c cs ih => rw [Scoped.children, List.mapM_cons, ih]

private theorem gives_wrap {e : Element} {body : LowerM Child}
    {x : List String → Except Fault Child}
    {components : List String} (hb : ∀ names, Gives o (.of names) body (x names) components)
    (ds : List Directive) (names : List String) :
    Gives o (.of names) (Lexical.wrap e body ds) (Scoped.wrap o e x ds names) components := by
  induction ds generalizing names with
  | nil => exact hb names
  | cons d ds ih =>
    rw [Lexical.wrap, Scoped.wrap]
    cases headerOf d with
    | error r => exact gives_refuse r
    | ok parts =>
      refine (gives_simple parts.source).bind fun source => ?_
      refine Gives.andThen (Gives.withNames ?_) fun inner => ?_
      · rw [← Scope.of_append]
        exact ih _
      · exact (gives_finishedLoop _).bind fun _ => gives_pure _

private theorem gives_plain {e : Element} {names : List String} {cs : LowerM (List Child)}
    {x : Except Fault (List Child)} {components : List String}
    (hc : Gives o (.of names) cs x components) :
    Gives o (.of names) (Lexical.plain e cs) (Scoped.plain o e names x)
      (components ++ (lookup? o e).toList) :=
  (gives_mapM gives_prop _).bind fun _ => hc.bind fun _ =>
    (gives_finished { e with props := _, children := _ }).andThen fun _ => gives_pure _

private theorem gives_childList {cs : List Child} {names : List String}
    (h : ∀ c ∈ cs, Gives o (.of names) (Lexical.child c) (Scoped.child o c names)
      ((childExits c).filterMap (lookup? o))) :
    Gives o (.of names) (Lexical.children cs) (Scoped.children o cs names)
      ((childrenExits cs).filterMap (lookup? o)) := by
  rw [Lexical.children_eq, Scoped.children_eq, childrenExits_eq, List.filterMap_flatMap]
  exact gives_mapM_of_mem h

/-- The lowering of a child gives what the recursion does, and registers the components among the
elements of the tree in the order in which these are left. -/
private theorem gives_child (c : Child) (names : List String) :
    Gives o (.of names) (Lexical.child c) (Scoped.child o c names)
      ((childExits c).filterMap (lookup? o)) := by
  induction c using Child.induction generalizing names with
  | element e ih =>
    rw [Lexical.child, Scoped.child, childExits, Lexical.element_eq, Scoped.element_eq,
      elementExits_eq, List.filterMap_append]
    exact gives_wrap (fun names => gives_plain (gives_childList fun c hc => ih c hc names)) _ names
  | text t =>
    rw [Lexical.child, Scoped.child, childExits]
    exact gives_pure _
  | interpolation i =>
    rw [Lexical.child, Scoped.child, childExits]
    exact (gives_expression i.content).bind fun _ => (gives_pure _).after_helper _
  | loop l ih =>
    rw [Lexical.child, Scoped.child, childExits, Lexical.loop_eq, Scoped.loop_eq, loopExits_eq]
    exact (gives_childList fun c hc => ih c hc names).andThen fun _ => gives_pure _
  | compound c =>
    rw [Lexical.child, Scoped.child, childExits]
    exact gives_pure _

private theorem gives_children (cs : List Child) (names : List String) :
    Gives o (.of names) (Lexical.children cs) (Scoped.children o cs names)
      ((childrenExits cs).filterMap (lookup? o)) :=
  gives_childList fun c _ => gives_child c names

/-- Lowering a root gives what lowering by names gives, and it registers the components that are
looked up, in the order in which their elements are left. -/
theorem gives_lower (o : LoweringOptions) (r : Root) :
    Gives o (.of []) (Lexical.root r) (Scoped.lower o r)
      ((childrenExits r.children).filterMap (lookup? o)) :=
  (gives_children r.children []).andThen fun _ => gives_root _

/-- The code of a lowered root is the code that lowering by names gives. -/
theorem code_lower (o : LoweringOptions) (r : Root) :
    Root.code <$> lower o r = Root.code <$> Scoped.lower o r := by
  obtain ⟨ns, hx, -⟩ := gives_lower o r
  rw [lower_eq, Lexical.lower]
  simp only [hx { options := o } rfl rfl]
  cases Scoped.lower o r <;> rfl

/-- A lowered root has its code from children that have been lowered by names. -/
theorem scoped_of_lower {r r' : Root} (h : lower o r = .ok r') :
    ∃ cs r₁, Scoped.children o r.children [] = .ok cs ∧
      Answer.root { r with children := mergeText cs } = .ok r₁ ∧ r'.code = r₁.code := by
  have hcode := code_lower o r
  rw [h] at hcode
  obtain ⟨r₁, hr₁, hcode⟩ := except_map_ok.mp hcode.symm
  obtain ⟨cs, hcs, hroot⟩ := except_bind_ok.mp hr₁
  exact ⟨cs, r₁, hcs, hroot, hcode⟩

/-- Where every site is allowed, lowered children print nothing but what is admitted. -/
theorem emitted_children {A : Stroke → Prop} {compounds : Bool} {names : List String}
    {cs cs' : List Child} (ha : ∀ hs, AdmitsShown A hs compounds)
    (hallowed : ∀ site : Site, site.Allowed A o) (hr : areRaw compounds cs = true)
    (h : Scoped.children o cs names = .ok cs') : ∀ c ∈ mergeText cs', Emitted A compounds c := by
  refine mergeText_emitted (ha .empty).toAdmits ?_
  exact Ensures.of_gives (fun hs => children_fine (ha hs) hr fun site _ => hallowed site)
    (h ▸ gives_children cs names)

end TemplateCompiler.Lowering
