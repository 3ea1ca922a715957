import TemplateCompiler.Component
import TemplateCompiler.Expression.Access
import TemplateCompiler.Lowering.Props
import TemplateCompiler.Lowering.Walk

/-! Elements: once its children have been lowered, an element gets the call that creates its
virtual node. -/
namespace TemplateCompiler.Lowering

variable {σ : Type}

/-- The variable of the setup code that a component tag refers to, as code, and whether that code
needs the runtime's `unref`. The tag is looked up as written, in camel form and capitalised; a
name that is declared as a prop refers to nothing. -/
def setupReference? (options : LoweringOptions) (tag : String) : Option (String × Bool) :=
  let camel := Text.camelize tag
  let find (name : String) : Option (String × BindingKind) :=
    (Expression.visibleBinding? options name).map fun kind => (name, kind)
  match [tag, camel, Text.capitalize camel].findSome? find with
  | none => none
  | some (_, .props) => none
  | some (name, .setupConst) => some (name, false)
  | some (name, .setupReactiveConst) => some (name, false)
  | some (name, .literalConst) => some (name, false)
  | some (name, _) => some (Helper.unref.localName ++ "(" ++ name ++ ")", true)

def isSelf (options : LoweringOptions) (tag : String) : Bool :=
  options.selfName.any fun name => Component.canonicalName name == Component.canonicalName tag

/-- The tag of the virtual node for an element. A component is looked up at run time, unless
setup code declares it. -/
def tagOf (e : Element) : LowerM VNodeTag := do
  if !e.isComponent then return .name e.tag
  let options := (← get).options
  match setupReference? options e.tag with
  | some (code, usesUnref) =>
    if usesUnref then LowerM.helper .unref
    return .asset code
  | none =>
    LowerM.helper .resolveComponent
    LowerM.component (Component.registered e.tag (isSelf options e.tag))
    return .asset (Component.holder e.tag)

/-- The children argument of a virtual node: a single child that shows as text stands alone. -/
def childrenCode : List Child → Option VNodeChildren
  | [] => none
  | [c] =>
    match c.textChild? with
    | some t => some (.single t)
    | none => some (.many [c])
  | cs => some (.many cs)

/-- Gives an element its virtual node, which takes over its children. A template element has
none. -/
def finishElement (table : DirectiveTable) (e : Element) : LowerM Element := do
  if e.kind == .template then
    LowerM.helper .fragment
    return e
  let tag ← tagOf e
  let built ← buildProps table e
  LowerM.helper .createElementVNode
  if built.directives.isSome then LowerM.helper .withDirectives
  let v : VNode :=
    { tag
      props := built.props
      children := childrenCode e.children
      directives := built.directives
      isComponent := e.isComponent
      span := e.span }
  return { e with children := [], code := some (.vnode v) }

def leaveElement (table : DirectiveTable) : VisitM σ Unit := do
  match (← get).node with
  | .element e => do
    let e' ← VisitM.lower (finishElement table e)
    VisitM.setNode (.element e')
  | _ => pure ()

/-- Gives elements their virtual nodes on the way out. -/
def buildElements (table : DirectiveTable) : VisitM σ (Option (Exit σ)) := do
  match (← get).node with
  | .element _ => return some (leaveElement table)
  | _ => return none

end TemplateCompiler.Lowering
