import TemplateCompiler.Expression.Literal
import TemplateCompiler.Expression.Resolve
import TemplateCompiler.Lowering.Context

/-! Processing of expressions: free names are resolved, or, where names are not resolved, literals
are marked as constant. -/
namespace TemplateCompiler

/-- The processed form of a simple expression, and whether it needs the runtime's `unref`. Static
and blank expressions stay as they are. There is none where resolution has no answer. -/
def Simple.processed? (options : LoweringOptions) (scope : Scope) (s : Simple) :
    Option (Simple × Bool) :=
  if s.isStatic || Text.isAllBlank s.content then some (s, false)
  else if options.prefixIdentifiers then
    (Expression.resolve? options scope s.content).map fun r =>
      ({ s with content := r.code, constancy := r.constancy }, r.usesUnref)
  else if Expression.isLiteral (Text.trim s.content.toList) then
    some ({ s with constancy := .canStringify }, false)
  else some (s, false)

def Simple.process (s : Simple) : LowerM Simple := do
  let c ← get
  match s.processed? c.options c.scope with
  | none => throw .splitCharacter
  | some (s', usesUnref) =>
    if usesUnref then LowerM.helper .unref
    return s'

/-- Processes a part of a compound expression. Only simple parts change; nested compounds and
interpolations are left alone. -/
def Part.process : Part → LowerM Part
  | .simple s => .simple <$> s.process
  | p => pure p

def Expression.process : Expression → LowerM Expression
  | .simple s => .simple <$> s.process
  | .compound c => do
    let parts ← c.parts.mapM Part.process
    return .compound { c with parts }

/-- Processes the expression and the dynamic argument of a directive. The expression of a listener
is left for later, because it sees the event. -/
def Directive.process (d : Directive) : LowerM Directive := do
  let exp ← if d.name == "on" then pure d.exp else d.exp.mapM Expression.process
  let arg ← d.arg.mapM fun a => if a.isStatic then pure a else a.process
  return { d with exp, arg }

end TemplateCompiler
