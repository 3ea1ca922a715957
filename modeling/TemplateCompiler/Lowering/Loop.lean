import TemplateCompiler.Lowering.LoopHeader
import TemplateCompiler.Lowering.Process
import TemplateCompiler.Lowering.Props
import TemplateCompiler.Lowering.Walk

/-! Loops: an element with a loop directive becomes a loop over it, and the loop, once its body has
been lowered, a fragment that renders the list. -/
namespace TemplateCompiler.Lowering

variable {σ : Type}

/-- Takes the first directive of the given name out of a list of props. -/
def takeDirective? (name : String) : List ElementProp → Option (Directive × List ElementProp)
  | [] => none
  | .directive d :: rest =>
    if d.name == name then some (d, rest)
    else (takeDirective? name rest).map fun (d', ps) => (d', .directive d :: ps)
  | p :: rest => (takeDirective? name rest).map fun (d', ps) => (d', p :: ps)

def headerOf (d : Directive) : Except Diagnostic HeaderParts :=
  match d.exp with
  | none => .error (.of .forWithoutExpression d.span)
  | some (.compound exp) => .error (.of .forMalformed exp.span)
  | some (.simple exp) => parseHeader exp

/-- Marks an alias as the declaration of its own name. -/
def declaring (s : Simple) : Simple := { s with identifiers := some [s.content] }

/-- The loop over an element, before its body has been lowered. -/
def loopOver (e : Element) (parts : HeaderParts) : Loop :=
  let source := Expression.simple parts.source
  let value := Expression.simple (declaring parts.value)
  let key := parts.key.map fun k => Expression.simple (declaring k)
  { source
    value := some value
    key
    header := { source, value := some value, key, finalized := true }
    children := [.element e]
    span := e.span }

def templateKey? (e : Element) : Option Code :=
  match e.findProp? "key" false with
  | none => none
  | some (.plain a) => some (attributeProperty a).value
  | some (.directive d) => d.exp.map .expression

def bodyFragment (e : Element) : VNode :=
  let property (value : Code) : Property := { key := .simple (.fixed "key" .stub), value }
  { tag := .helper .fragment
    props := (templateKey? e).map fun value => .object { properties := [property value] }
    children := some (.many e.children)
    patchFlag := some .stableFragment
    isBlock := true }

/-- Takes the code of an element that is a virtual node out of it. -/
def takeVNode? (e : Element) : Option (VNode × Element) :=
  match e.code with
  | some (.vnode v) => some (v, { e with code := none })
  | _ => none

/-- Takes the virtual node of one item out of the body of a loop. For a template element this is
the node of its only child, or else a fragment over its children. -/
def takeBody (e : Element) : LowerM (Option (VNode × Element)) :=
  if e.kind != .template then return takeVNode? e
  else
    match e.children with
    | [.element child] =>
      match takeVNode? child with
      | some (v, child') => return some (v, { e with children := [.element child'] })
      | none => do
        LowerM.helper .fragment
        let bare := { e with children := [.element { child with code := none }] }
        return some (bodyFragment bare, { e with children := [] })
    | _ => do
      LowerM.helper .fragment
      return some (bodyFragment e, { e with children := [] })

/-- Whether the source of a loop never changes. -/
def isStableSource : Expression → Bool
  | .simple s => s.constancy != .notConstant
  | .compound _ => false

def loopCode (l : Loop) (body : VNode) : VNode :=
  let isStable := isStableSource l.source
  let params := l.value.toList ++ l.key.toList
  let item : FunctionCode :=
    { params := some (.many (params.map .expression)), returns := some (.code (.vnode body)) }
  let call : Call :=
    { callee := .helper .renderList
      arguments := [.code (.expression l.source), .code (.function item)] }
  { tag := .helper .fragment
    children := some (.renderList call)
    patchFlag := some (if isStable then .stableFragment
      else if body.hasKey then .keyedFragment else .unkeyedFragment)
    isBlock := true
    disableTracking := !isStable
    span := l.span }

/-- Gives a loop its code once its body has been lowered. -/
def finishLoop (l : Loop) : LowerM Loop := do
  match l.children with
  | .element e :: rest =>
    match ← takeBody e with
    | none => LowerM.refuse (.of .missingCode l.span)
    | some (body, e') =>
      LowerM.helper .renderList
      LowerM.helper .fragment
      LowerM.helper .createElementVNode
      return { l with children := .element e' :: rest, code := some (loopCode l body) }
  | _ => LowerM.refuse (.of .missingCode l.span)

/-- Leaves a loop: its names go out of scope and it gets its code. -/
def leaveLoop (names : List String) : VisitM σ Unit := do
  VisitM.modifyContext fun c => c.removeNames names
  match (← get).node with
  | .loop l => do
    let l' ← VisitM.lower (finishLoop l)
    VisitM.setNode (.loop l')
  | _ => pure ()

/-- Puts a loop in the place of an element with a loop directive. The source is processed before
the names of the loop are declared. -/
def lowerLoops : VisitM σ (Option (Exit σ)) := do
  match (← get).node with
  | .element e =>
    match takeDirective? "for" e.props with
    | none => return none
    | some (d, props) => do
      let e' := { e with props }
      VisitM.setNode (.element e')
      match headerOf d with
      | .error r => throw (.refused r)
      | .ok parts => do
        let source ← VisitM.lower parts.source.process
        let l := loopOver e' { parts with source }
        VisitM.replaceNode (.loop l)
        VisitM.modifyContext fun c => c.addNames l.aliasNames
        return some (leaveLoop l.aliasNames)
  | _ => return none

end TemplateCompiler.Lowering
