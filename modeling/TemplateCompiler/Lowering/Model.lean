import TemplateCompiler.Lowering.Directive
import TemplateCompiler.Text.MemberPath

/-! Two-way bindings: `v-model="text"` becomes a value and a handler that assigns to it. -/
namespace TemplateCompiler.Lowering

/-- The prop that a two-way binding without an argument binds. -/
def defaultModelProp : String := "modelValue"

/-- Whether the element is a form control of the document, which holds its value itself. -/
def isFormControl (e : Element) : Bool :=
  e.kind == .element && ["input", "textarea", "select"].contains e.tag

/-- The text that a two-way binding assigns to. -/
def modelTarget : Expression → String
  | .simple exp => exp.content
  | .compound exp => exp.span.text

/-- The keys of the value and of its handler. -/
def modelKeys (arg : Option Expression) : Expression × Expression :=
  let byName (name : String) : Expression × Expression :=
    (.simple (.fixed name .stub), .simple (.fixed ("onUpdate:" ++ name) .stub))
  match arg with
  | some (.simple s) =>
    if s.isStatic then byName s.content
    else (.simple s, .compound { parts := [.raw "\x22onUpdate:\x22 + ", .simple s] })
  | _ => byName defaultModelProp

/-- The handler that assigns the event to a target. -/
def assignment (target : String) : String :=
  "$event => ((" ++ String.ofList (Text.trim target.toList) ++ ") = $event)"

/-- Why a two-way binding is refused, if it is. Of several reasons the first counts: no
expression, a blank one, one that cannot be assigned to, a template element. -/
def modelRefusal? (e : Element) (d : Directive) : Option Diagnostic :=
  match d.exp with
  | none => some (.of .modelWithoutExpression d.span)
  | some exp =>
    let target := modelTarget exp
    if Text.isAllBlank target then some (.of .modelWithoutExpression exp.span)
    else if !Text.isMemberPath target then some ⟨.modelMalformed, some exp.span, some target⟩
    else if e.kind == .template then some (.of .modelOnTemplate d.span)
    else none

/-- What an accepted two-way binding contributes. A form control without an argument gets no value
property, but the runtime directive that keeps its text. -/
def modelContribution (e : Element) (d : Directive) (exp : Expression) : Contribution :=
  let keys := modelKeys d.arg
  let handler : Property :=
    { key := keys.2, value := .expression (.simple (.code (assignment (modelTarget exp)) .stub)) }
  if isFormControl e && d.arg.isNone then { properties := [handler], runtime := some .vModelText }
  else { properties := [{ key := keys.1, value := .expression exp }, handler] }

def model : DirectiveLowering := fun e d =>
  match modelRefusal? e d, d.exp with
  | some r, _ => LowerM.refuse r
  | none, some exp => return modelContribution e d exp
  | none, none => return {}

end TemplateCompiler.Lowering
