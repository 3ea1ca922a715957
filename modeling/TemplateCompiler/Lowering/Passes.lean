import TemplateCompiler.Lowering.Bind
import TemplateCompiler.Lowering.Element
import TemplateCompiler.Lowering.Listen
import TemplateCompiler.Lowering.Loop
import TemplateCompiler.Lowering.Model
import TemplateCompiler.Lowering.TextRuns

/-! The passes that lower a template: loops, expressions, elements and runs of text. -/
namespace TemplateCompiler.Lowering

variable {σ : Type}

/-- Processes the expressions of a prop. The loop directive looks after its own. -/
def processProp : ElementProp → LowerM ElementProp
  | .directive d => if d.name == "for" then return .directive d else .directive <$> d.process
  | p => return p

/-- Processes interpolations and the directives of elements. -/
def processExpressions : VisitM σ (Option (Exit σ)) := do
  match (← get).node with
  | .interpolation i => do
    let content ← VisitM.lower i.content.process
    VisitM.setNode (.interpolation { i with content })
  | .element e => do
    let props ← VisitM.lower (e.props.mapM processProp)
    VisitM.setNode (.element { e with props })
  | _ => pure ()
  return none

/-- Joins the runs of text among the children of the node. -/
def leaveText : VisitM σ Unit := do
  match (← get).node with
  | .element e => VisitM.setNode (.element { e with children := mergeText e.children })
  | .loop l => VisitM.setNode (.loop { l with children := mergeText l.children })
  | _ => pure ()

def joinText : VisitM σ (Option (Exit σ)) := do
  match (← get).node with
  | .element _ => return some leaveText
  | .loop _ => return some leaveText
  | _ => return none

/-- The directives that become properties. -/
def standardDirectives : DirectiveTable
  | "bind" => some bindProp
  | "on" => some listen
  | "model" => some model
  | _ => none

def standardPasses : List (Pass σ) :=
  [lowerLoops, processExpressions, buildElements standardDirectives, joinText]

end TemplateCompiler.Lowering
