import TemplateCompiler.Lowering.Directive
import TemplateCompiler.Text.Case

/-! Bound props: `:title="text"` becomes a property. -/
namespace TemplateCompiler.Lowering

/-- The code behind a computed key, which keeps an absent name from being read as a word. -/
def emptyFallback : Part := .raw " || \x22\x22"

/-- The key of a bound prop. The modifier `camel` applies to static names only. -/
def boundKey (d : Directive) : Expression → Expression
  | .simple arg =>
    if arg.isStatic then
      let name := if d.hasModifier "camel" then Text.camelize arg.content else arg.content
      .simple (.fixed name .stub)
    else .compound { parts := [.simple arg, emptyFallback] }
  | .compound arg => .compound { arg with parts := arg.parts ++ [emptyFallback] }

/-- Lowers a bound prop to one property. Without an argument it contributes nothing here. -/
def bindProp : DirectiveLowering := fun _ d =>
  match d.exp with
  | none => LowerM.refuse (.of .bindWithoutExpression d.span)
  | some exp =>
    if exp.isBlank then LowerM.refuse (.of .bindWithoutExpression d.span)
    else
      match d.arg with
      | none => return {}
      | some arg => return { properties := [{ key := boundKey d arg, value := .expression exp }] }

end TemplateCompiler.Lowering
