import TemplateCompiler.Lowering.Directive
import TemplateCompiler.Lowering.MergeProps

/-! The props of a virtual node, from the attributes and directives of its element. -/
namespace TemplateCompiler.Lowering

def attributeProperty (a : Attribute) : Property :=
  { key := .simple (.fixed a.name .stub)
    value := .expression (.simple (.fixed ((a.value.map TextNode.content).getD "") .stub)) }

/-- What has been gathered from the props read so far. -/
structure PropsBuilder where
  /-- The properties since the last bound object. -/
  properties : List Property := []
  /-- The segments and bound objects before them. -/
  merged : List Argument := []
  /-- The runtime directives. -/
  runtime : List ArrayItem := []

namespace PropsBuilder

/-- An object literal of the properties of a segment, as an argument. -/
def segment (properties : List Property) : Argument :=
  .code (.object { properties := mergeProperties properties })

/-- Closes the current segment; an empty one is left out. -/
def close (b : PropsBuilder) : PropsBuilder :=
  if b.properties.isEmpty then b
  else { b with properties := [], merged := b.merged ++ [segment b.properties] }

/-- Adds a bound object, which ends the current segment. -/
def addObject (b : PropsBuilder) (exp : Expression) : PropsBuilder :=
  { b.close with merged := b.close.merged ++ [.code (.expression exp)] }

def addContribution (b : PropsBuilder) (d : Directive) (c : Contribution) : PropsBuilder :=
  let entry (h : Helper) : ArrayItem :=
    .code (.array { elements := .helper h :: (d.exp.map fun e => .code (.expression e)).toList })
  { b with
    properties := b.properties ++ c.properties
    runtime := b.runtime ++ (c.runtime.map entry).toList }

/-- Reads one more prop. A listener without an argument and a directive that the table does not
know are passed over. -/
def addProp (table : DirectiveTable) (e : Element) (b : PropsBuilder) :
    ElementProp → LowerM PropsBuilder
  | .plain a => return { b with properties := b.properties ++ [attributeProperty a] }
  | .directive d =>
    if d.arg.isNone && d.name == "on" then return b
    else if d.arg.isNone && d.name == "bind" then
      match d.exp with
      | none => LowerM.refuse (.of .bindWithoutExpression d.span)
      | some exp => return b.addObject exp
    else
      match table d.name with
      | none => return b
      | some lowering => do
        let c ← lowering e d
        if let some h := c.runtime then LowerM.helper h
        return b.addContribution d c

def addProps (table : DirectiveTable) (e : Element) (b : PropsBuilder) :
    List ElementProp → LowerM PropsBuilder
  | [] => return b
  | p :: rest => do
    let b' ← b.addProp table e p
    b'.addProps table e rest

end PropsBuilder

/-- The helper that puts a value of the property into its normal form, if there is one. -/
def normalizer? (p : Property) : Option Helper :=
  match p.staticKey? with
  | some "class" => some .normalizeClass
  | some "style" => some .normalizeStyle
  | _ => none

/-- Whether the value is a static string. -/
def isFixedValue : Code → Bool
  | .expression e => e.isStatic
  | _ => false

/-- Normalises the value of a property, if it is one of those and not a static string. -/
def normalizeProperty (p : Property) : LowerM Property := do
  match normalizer? p with
  | none => return p
  | some h =>
    if isFixedValue p.value then return p
    else
      LowerM.helper h
      return { p with value := .call { callee := .helper h, arguments := [.code p.value] } }

def propsCall (h : Helper) (arguments : List Argument) : LowerM PropsCode := do
  LowerM.helper h
  return .call { callee := .helper h, arguments }

namespace PropsBuilder

/-- The props argument. Bound objects are merged at run time; an object with a computed key
is normalised as a whole, any other property by property. -/
def finish (b : PropsBuilder) : LowerM (Option PropsCode) := do
  if !b.merged.isEmpty then
    let arguments := b.close.merged
    some <$> propsCall (if arguments.length > 1 then .mergeProps else .normalizeProps) arguments
  else if b.properties.isEmpty then return none
  else if b.properties.any fun p => p.staticKey?.isNone then
    some <$> propsCall .normalizeProps [segment b.properties]
  else
    let properties ← (mergeProperties b.properties).mapM normalizeProperty
    return some (.object { properties })

end PropsBuilder

structure BuiltProps where
  props : Option PropsCode
  directives : Option ArrayCode

def buildProps (table : DirectiveTable) (e : Element) : LowerM BuiltProps := do
  let b ← PropsBuilder.addProps table e {} e.props
  let props ← b.finish
  let directives := if b.runtime.isEmpty then none else some { elements := b.runtime }
  return ⟨props, directives⟩

end TemplateCompiler.Lowering
