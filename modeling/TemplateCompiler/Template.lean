import TemplateCompiler.Expression
import TemplateCompiler.PatchFlags

/-! Template trees. The nodes a template is made of carry, once lowered, the nodes of the
render code that stand for them, so both kinds are declared together. -/
namespace TemplateCompiler

inductive NodeKind where
  | root
  | element
  | text
  | simpleExpression
  | interpolation
  | plainAttribute
  | directive
  | compoundExpression
  | loop
  | vnodeCall
  | callExpression
  | objectExpression
  | property
  | arrayExpression
  | functionExpression
  deriving DecidableEq, Repr, Inhabited

inductive ElementKind where
  | element
  | component
  | template
  deriving DecidableEq, Repr, Inhabited

structure Attribute where
  name : String
  value : Option TextNode := none
  span : Span := .stub
  deriving DecidableEq, Repr, Inhabited

/-- A directive: `v-name:arg.modifier="exp"`. -/
structure Directive where
  name : String
  rawName : Option String := none
  exp : Option Expression := none
  arg : Option Expression := none
  modifiers : List String := []
  span : Span := .stub

def Directive.hasModifier (d : Directive) (modifier : String) : Bool :=
  d.modifiers.contains modifier

inductive ElementProp where
  | plain (a : Attribute)
  | directive (d : Directive)

def ElementProp.span : ElementProp → Span
  | plain a => a.span
  | directive d => d.span

/-- What the expression of a loop directive says. -/
structure LoopHeader where
  source : Expression
  value : Option Expression := none
  key : Option Expression := none
  finalized : Bool := false

/-- The tag of a virtual node: a quoted name, a variable or a runtime value. -/
inductive VNodeTag where
  | name (tag : String)
  | asset (id : String)
  | helper (h : Helper)
  deriving DecidableEq, Repr

inductive Callee where
  | name (code : String)
  | helper (h : Helper)
  deriving DecidableEq, Repr

inductive Param where
  | expression (e : Expression)
  | raw (code : String)

inductive Params where
  | single (e : Expression)
  | raw (code : String)
  | many (params : List Param)

/-- A child that shows as text. -/
inductive TextChild where
  | text (t : TextNode)
  | interpolation (i : Interpolation)
  | compound (c : Compound)

mutual

inductive Child where
  | element (e : Element)
  | text (t : TextNode)
  | interpolation (i : Interpolation)
  | loop (l : Loop)
  | compound (c : Compound)

/-- An element with its props and children. Its code appears when it is lowered. -/
structure Element where
  tag : String
  kind : ElementKind := .element
  props : List ElementProp := []
  children : List Child := []
  isSelfClosing : Bool := false
  span : Span := .stub
  code : Option ElementCode := none

inductive ElementCode where
  | vnode (v : VNode)
  | simple (s : Simple)

/-- An element repeated for each item of a source. -/
structure Loop where
  source : Expression
  value : Option Expression := none
  key : Option Expression := none
  header : LoopHeader
  children : List Child := []
  span : Span := .stub
  code : Option VNode := none

/-- A call that creates a virtual node. -/
structure VNode where
  tag : VNodeTag
  props : Option PropsCode := none
  children : Option VNodeChildren := none
  patchFlag : Option PatchFlags := none
  directives : Option ArrayCode := none
  isBlock : Bool := false
  disableTracking : Bool := false
  isComponent : Bool := false
  span : Span := .stub

inductive PropsCode where
  | object (o : ObjectCode)
  | call (c : Call)
  | simple (s : Simple)

inductive VNodeChildren where
  | many (children : List Child)
  | single (child : TextChild)
  | renderList (c : Call)

inductive Code where
  | vnode (v : VNode)
  | call (c : Call)
  | object (o : ObjectCode)
  | array (a : ArrayCode)
  | function (f : FunctionCode)
  | expression (e : Expression)

structure Call where
  callee : Callee
  arguments : List Argument := []
  span : Span := .stub

inductive Argument where
  | raw (code : String)
  | helper (h : Helper)
  | code (c : Code)
  | child (c : Child)
  | children (cs : List Child)

structure ObjectCode where
  properties : List Property := []
  span : Span := .stub

structure Property where
  key : Expression
  value : Code
  span : Span := .stub

structure ArrayCode where
  elements : List ArrayItem := []
  span : Span := .stub

inductive ArrayItem where
  | raw (code : String)
  | helper (h : Helper)
  | code (c : Code)

structure FunctionCode where
  params : Option Params := none
  returns : Option Returns := none
  newline : Bool := false
  span : Span := .stub

inductive Returns where
  | child (c : Child)
  | children (cs : List Child)
  | code (c : Code)

end

/-- Induction over a tree: the children of an element or of a loop come before it. -/
@[elab_as_elim]
theorem Child.induction {motive : Child → Prop}
    (element : ∀ e : Element, (∀ c ∈ e.children, motive c) → motive (.element e))
    (text : ∀ t, motive (.text t)) (interpolation : ∀ i, motive (.interpolation i))
    (loop : ∀ l : Loop, (∀ c ∈ l.children, motive c) → motive (.loop l))
    (compound : ∀ c, motive (.compound c)) (c : Child) : motive c := by
  induction h : sizeOf c using Nat.strongRecOn generalizing c with
  | ind n ih =>
    subst h
    cases c with
    | element e =>
      refine element e fun c hc => ih _ ?_ c rfl
      have := List.sizeOf_lt_of_mem hc
      cases e
      simp only [Child.element.sizeOf_spec, Element.mk.sizeOf_spec] at this ⊢
      omega
    | loop l =>
      refine loop l fun c hc => ih _ ?_ c rfl
      have := List.sizeOf_lt_of_mem hc
      cases l
      simp only [Child.loop.sizeOf_spec, Loop.mk.sizeOf_spec] at this ⊢
      omega
    | text t => exact text t
    | interpolation i => exact interpolation i
    | compound c => exact compound c

inductive RootCode where
  | vnode (v : VNode)
  | child (c : Child)

structure Root where
  children : List Child := []
  helpers : List Helper := []
  components : List String := []
  source : String := ""
  span : Span := .stub
  code : Option RootCode := none
  transformed : Bool := false

end TemplateCompiler
