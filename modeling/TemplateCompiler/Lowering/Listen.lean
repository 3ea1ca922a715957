import TemplateCompiler.Expression.Function
import TemplateCompiler.Lowering.Directive
import TemplateCompiler.Lowering.Process
import TemplateCompiler.Text.Case
import TemplateCompiler.Text.MemberPath

/-! Event listeners: `@click="count++"` becomes a handler property. -/
namespace TemplateCompiler.Lowering

/-- The property that holds the handler of an event. On a plain element, an event with an
upper-case letter keeps its name behind `on:`; every other name is put in camel form. -/
def eventKey (event : String) (isComponent : Bool) : String :=
  if !isComponent && event.toList.any Char.isUpper then "on:" ++ event
  else Text.handlerKey (Text.camelize event)

def computedKey (event : Part) : Compound :=
  { parts := [.helper .toHandlerKey, .raw "(", event, .raw ")"], isHandlerKey := true }

def handlerKeyOf (e : Element) : Expression → LowerM Expression
  | .simple arg =>
    if arg.isStatic then
      return .simple
        { Simple.fixed (eventKey arg.content e.isComponent) .stub with isHandlerKey := true }
    else do
      LowerM.helper .toHandlerKey
      return .compound (computedKey (.simple arg))
  | .compound arg => do
    LowerM.helper .toHandlerKey
    return .compound (computedKey (.compound arg))

/-- A function of the event that runs a statement, or several if there is a semicolon. -/
def inlineHandler (statement : String) : String :=
  let text := Text.trim statement.toList
  let body := if text.contains ';' then '\x7b' :: text ++ ['\x7d'] else '(' :: text ++ [')']
  "$event => " ++ String.ofList body

/-- Whether a handler is a statement to run, and not a member path or function to call. It is
told by the text before names are resolved. -/
def isStatement (content : String) : Bool :=
  let text := Text.trim content.toList
  !(Text.isMemberPath (String.ofList text) || Expression.looksLikeFunction text)

/-- The handler: a statement is made into a function, a blank or absent expression does
nothing. -/
def handlerOf : Option Expression → LowerM Code
  | some (.simple exp) =>
    if Text.isAllBlank exp.content then return .expression (.simple (.code "() => \x7b\x7d" .stub))
    else do
      let handler ← exp.process
      if isStatement exp.content then
        return .expression (.simple { handler with content := inlineHandler handler.content })
      else return .expression (.simple handler)
  | some (.compound exp) => return .expression (.compound exp)
  | none => return .expression (.simple (.code "() => \x7b\x7d" .stub))

/-- Lowers a listener to one handler property. Without an argument it contributes nothing. -/
def listen : DirectiveLowering := fun e d =>
  match d.arg with
  | none => return {}
  | some arg => do
    let key ← handlerKeyOf e arg
    let value ← handlerOf d.exp
    return { properties := [{ key, value }] }

end TemplateCompiler.Lowering
