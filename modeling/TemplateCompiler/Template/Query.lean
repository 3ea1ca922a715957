import TemplateCompiler.Template

/-! Questions about the nodes of a template tree. -/
namespace TemplateCompiler

def Expression.kind : Expression → NodeKind
  | simple _ => .simpleExpression
  | compound _ => .compoundExpression

def Child.kind : Child → NodeKind
  | element _ => .element
  | text _ => .text
  | interpolation _ => .interpolation
  | loop _ => .loop
  | compound _ => .compoundExpression

def Child.span : Child → Span
  | element e => e.span
  | text t => t.span
  | interpolation i => i.span
  | loop l => l.span
  | compound c => c.span

/-- The child as text, if it shows as text. -/
def Child.textChild? : Child → Option TextChild
  | text t => some (.text t)
  | interpolation i => some (.interpolation i)
  | compound c => some (.compound c)
  | _ => none

def Child.isTextLike (c : Child) : Bool := c.textChild?.isSome

def Code.kind : Code → NodeKind
  | vnode _ => .vnodeCall
  | call _ => .callExpression
  | object _ => .objectExpression
  | array _ => .arrayExpression
  | function _ => .functionExpression
  | expression e => e.kind

namespace Element

def isComponent (e : Element) : Bool := e.kind == .component

/-- The first directive of the given name and its place among the props. Unless `allowEmpty`
is set, directives without an expression are passed over. -/
def findDirective? (e : Element) (name : String) (allowEmpty : Bool) : Option Nat :=
  e.props.findIdx? fun
    | .plain _ => false
    | .directive d => d.name == name && (allowEmpty || d.exp.isSome)

/-- Whether a directive binds the prop of the given name: a `bind` with that static argument. -/
def bindsProp (d : Directive) (name : String) : Bool :=
  d.name == "bind" && (d.arg.bind Expression.staticContent?) == some name

/-- The first prop of the given name: an attribute, unless `dynamicOnly` is set, or a `bind`
directive with that static argument. -/
def findProp? (e : Element) (name : String) (dynamicOnly : Bool) : Option ElementProp :=
  e.props.find? fun
    | .plain a => !dynamicOnly && a.name == name
    | .directive d => bindsProp d name

end Element

/-- The names that the loop declares: its value and key aliases, in that order. Aliases that are
not simple are left out. -/
def Loop.aliasNames (l : Loop) : List String :=
  (l.value.bind Expression.simpleContent?).toList ++ (l.key.bind Expression.simpleContent?).toList

def Property.staticKey? (p : Property) : Option String := p.key.staticContent?

/-- Whether the props of the virtual node are an object literal with the static key `key`. -/
def VNode.hasKey (v : VNode) : Bool :=
  match v.props with
  | some (.object o) => o.properties.any fun p => p.staticKey? == some "key"
  | _ => false

def Root.hasHelper (r : Root) (h : Helper) : Bool := r.helpers.contains h

end TemplateCompiler
