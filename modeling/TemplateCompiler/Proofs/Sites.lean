import TemplateCompiler.Proofs.Lexical

/-! Templates as they are written, before any lowering, and the places in them that the lowering
looks at, each with the names that the loops around it declare. -/
namespace TemplateCompiler

def Expression.isRaw (compounds : Bool) : Expression → Bool
  | .simple _ => true
  | .compound _ => compounds

def ElementProp.isRaw (compounds : Bool) : ElementProp → Bool
  | .plain _ => true
  | .directive d => d.exp.all (·.isRaw compounds) && d.arg.all (·.isRaw compounds)

mutual

/-- Whether nothing in the tree has been lowered: there are no loops and no code. Compound
expressions may occur if `compounds` is set. -/
def Child.isRaw (compounds : Bool) : Child → Bool
  | .element e => e.isRaw compounds
  | .text _ => true
  | .interpolation i => i.content.isRaw compounds
  | .loop _ => false
  | .compound _ => compounds

def Element.isRaw (compounds : Bool) : Element → Bool
  | { props, children := cs, code, .. } =>
    code.isNone && props.all (·.isRaw compounds) && areRaw compounds cs

def areRaw (compounds : Bool) : List Child → Bool
  | [] => true
  | c :: rest => c.isRaw compounds && areRaw compounds rest

end

def Root.isRaw (compounds : Bool) (r : Root) : Bool :=
  r.code.isNone && areRaw compounds r.children

theorem areRaw_iff {compounds : Bool} {cs : List Child} :
    areRaw compounds cs = true ↔ ∀ c ∈ cs, c.isRaw compounds = true := by
  induction cs with
  | nil => simp [areRaw]
  | cons c cs ih => rw [areRaw, Bool.and_eq_true, ih, List.forall_mem_cons]

theorem Element.isRaw_iff {compounds : Bool} {e : Element} : e.isRaw compounds = true ↔
    e.code = none ∧ (∀ p ∈ e.props, p.isRaw compounds = true) ∧
      ∀ c ∈ e.children, c.isRaw compounds = true := by
  cases e
  simp only [isRaw, Bool.and_eq_true, Option.isNone_iff_eq_none, List.all_eq_true, areRaw_iff,
    and_assoc]

namespace Lowering

/-- A place that the lowering looks at. -/
inductive Site where
  /-- An expression that is processed with exactly these names in scope. -/
  | expression (names : List String) (exp : Simple)
  /-- A name that a loop declares. -/
  | declared (exp : Simple)
  /-- The tag of a component. -/
  | component (tag : String)
  deriving DecidableEq, Repr

/-- The code that can be printed for a place. An expression is processed where exactly the names
of the place are in scope; a listener makes a function of it, a two-way binding an assignment. -/
inductive Site.Prints (o : LoweringOptions) : Site → Simple → Prop
  | processed {names : List String} {e e' : Simple} (h : Answer.simple o (.of names) e = .ok e') :
      Prints o (.expression names e) e'
  | handler {names : List String} {e e' : Simple} (h : Answer.simple o (.of names) e = .ok e') :
      Prints o (.expression names e) { e' with content := inlineHandler e'.content }
  | assigned {names : List String} {e e' : Simple} (h : Answer.simple o (.of names) e = .ok e') :
      Prints o (.expression names e) (.code (assignment e'.content) .stub)
  | declared (e : Simple) : Prints o (.declared e) (declaring e)

/-- The names that a loop header declares. -/
def HeaderParts.aliases (p : HeaderParts) : List String :=
  p.value.content :: (p.key.map Simple.content).toList

/-- The names that some loop directives declare. -/
def aliasesOf : List Directive → List String
  | [] => []
  | d :: ds => (headerOf d).toOption.toList.flatMap HeaderParts.aliases ++ aliasesOf ds

/-- The places in a list of loop directives, of which each sees the names of those before it. -/
def headerSites : List Directive → List String → List Site
  | [], _ => []
  | d :: ds, names =>
    match headerOf d with
    | .error _ => []
    | .ok p =>
      .expression names p.source :: .declared p.value :: p.key.toList.map .declared ++
        headerSites ds (names ++ p.aliases)

def expressionSites (names : List String) : Option Expression → List Site
  | some (.simple e) => [.expression names e]
  | _ => []

/-- The places in a prop. A listener of a template element, or without an argument, is never
lowered. -/
def propSites (kind : ElementKind) (names : List String) : ElementProp → List Site
  | .plain _ => []
  | .directive d =>
    expressionSites names d.arg ++
      if d.name == "on" && (kind == .template || d.arg.isNone) then []
      else expressionSites names d.exp

mutual

/-- The places in a tree around which the given names are declared. -/
def childSites : Child → List String → List Site
  | .element e, names => elementSites e names
  | .interpolation i, names => expressionSites names (some i.content)
  | _, _ => []

def elementSites : Element → List String → List Site
  | { tag, kind, props, children := cs, .. }, names =>
    let inner := names ++ aliasesOf (loopDirectives props)
    headerSites (loopDirectives props) names ++
      (if kind == .component then [.component tag] else []) ++
      (otherProps props).flatMap (propSites kind inner) ++ childrenSites cs inner

def childrenSites : List Child → List String → List Site
  | [], _ => []
  | c :: rest, names => childSites c names ++ childrenSites rest names

end

/-- The sites of an element: its headers, its tag, its props and, under its aliases, its children.
-/
theorem elementSites_eq (e : Element) (names : List String) : elementSites e names =
    headerSites (loopDirectives e.props) names ++
      (if e.kind == .component then [.component e.tag] else []) ++
      (otherProps e.props).flatMap
        (propSites e.kind (names ++ aliasesOf (loopDirectives e.props))) ++
      childrenSites e.children (names ++ aliasesOf (loopDirectives e.props)) := by
  cases e
  rw [elementSites]

theorem childrenSites_eq (cs : List Child) (names : List String) :
    childrenSites cs names = cs.flatMap (childSites · names) := by
  induction cs with
  | nil => rw [childrenSites, List.flatMap_nil]
  | cons c cs ih => rw [childrenSites, List.flatMap_cons, ih]

mutual

/-- The elements of a tree in the order in which a walk leaves them. -/
def childExits : Child → List Element
  | .element e => elementExits e
  | .text _ => []
  | .interpolation _ => []
  | .loop l => loopExits l
  | .compound _ => []

def elementExits : Element → List Element
  | { tag, kind, props, children := cs, isSelfClosing, span, code } =>
    childrenExits cs ++ [{ tag, kind, props, children := cs, isSelfClosing, span, code }]

def loopExits : Loop → List Element
  | { children := cs, .. } => childrenExits cs

def childrenExits : List Child → List Element
  | [] => []
  | c :: rest => childExits c ++ childrenExits rest

end

theorem elementExits_eq (e : Element) : elementExits e = childrenExits e.children ++ [e] := by
  cases e
  rw [elementExits]

theorem loopExits_eq (l : Loop) : loopExits l = childrenExits l.children := by
  cases l
  rw [loopExits]

/-- Elements are left in the order of the children. -/
theorem childrenExits_eq (cs : List Child) : childrenExits cs = cs.flatMap childExits := by
  induction cs with
  | nil => rw [childrenExits, List.flatMap_nil]
  | cons c cs ih => rw [childrenExits, List.flatMap_cons, ih]

/-- A repeated template element with a list item and text, and a component behind it. The name
`item` is declared in the first and free in the second. -/
def itemRows : Root where
  children := [
    .element {
      tag := "template", kind := .template
      props := [
        .directive { name := "for", exp := some (.simple (.code "(item, i) in items" .stub)) },
        .directive {
          name := "bind", arg := some (.simple (.fixed "key" .stub))
          exp := some (.simple (.code "i" .stub)) }]
      children := [
        .element {
          tag := "li"
          props := [.directive {
            name := "on", arg := some (.simple (.fixed "click" .stub))
            exp := some (.simple (.code "pick(item)" .stub)) }]
          children := [
            .interpolation { content := .simple (.code "item" .stub) },
            .text { content := ": " },
            .interpolation { content := .simple (.code "other" .stub) }] },
        .text { content := "!" }] },
    .element {
      tag := "Row", kind := .component
      props := [.directive { name := "model", exp := some (.simple (.code "item" .stub)) }] }]

theorem aliasNames_loopOver (e : Element) (p : HeaderParts) :
    (loopOver e p).aliasNames = p.aliases := by
  cases h : p.key <;> simp [Loop.aliasNames, loopOver, HeaderParts.aliases, declaring,
    Expression.simpleContent?, h]

theorem aliasesOf_cons_ok {d : Directive} {p : HeaderParts} (h : headerOf d = .ok p)
    (ds : List Directive) : aliasesOf (d :: ds) = p.aliases ++ aliasesOf ds := by
  simp [aliasesOf, h, Except.toOption]

end Lowering

end TemplateCompiler
