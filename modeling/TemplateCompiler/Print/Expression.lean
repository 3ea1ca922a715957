import TemplateCompiler.Print.Writer
import TemplateCompiler.Template

/-! Printing of expressions and text. -/
namespace TemplateCompiler.Print

/-- Prints a simple expression: a static one as a literal, any other as it is. -/
def simple (s : Simple) : PrintM Unit :=
  if s.isStatic then pushLiteral s.content else push s.content

def text (t : TextNode) : PrintM Unit := pushLiteral t.content

mutual

def expression : Expression → PrintM Unit
  | .simple s => simple s
  | .compound c => compound c

def compound : Compound → PrintM Unit
  | { parts := ps, .. } => parts ps

def parts : List Part → PrintM Unit
  | [] => pure ()
  | p :: rest => do
    part p
    parts rest

def part : Part → PrintM Unit
  | .simple s => simple s
  | .compound c => compound c
  | .interpolation i => interpolation i
  | .text t => text t
  | .raw code => push code
  | .helper h => pushHelper h

/-- Prints an interpolation as a call that shows its value. -/
def interpolation : Interpolation → PrintM Unit
  | { content := e, .. } => do
    push "_toDisplayString("
    expression e
    push ")"

end

def textChild : TextChild → PrintM Unit
  | .text t => text t
  | .interpolation i => interpolation i
  | .compound c => compound c

/-- Prints the key of a property: a static one as a literal, any other in square brackets. -/
def propertyKey : Expression → PrintM Unit
  | .simple s =>
    if s.isStatic then pushLiteral s.content
    else do
      push "["
      push s.content
      push "]"
  | .compound c => do
    push "["
    compound c
    push "]"

def param : Param → PrintM Unit
  | .expression e => expression e
  | .raw code => push code

/-- Prints parameters with commas between them; `isFirst` says that none stands before them. -/
def paramList (isFirst : Bool) : List Param → PrintM Unit
  | [] => pure ()
  | p :: rest => do
    if !isFirst then push ", "
    param p
    paramList false rest

def params : Option Params → PrintM Unit
  | none => pure ()
  | some (.single e) => expression e
  | some (.raw code) => push code
  | some (.many ps) => paramList true ps

def callee : Callee → PrintM Unit
  | .name code => push code
  | .helper h => pushHelper h

def tag : VNodeTag → PrintM Unit
  | .name name => pushLiteral name
  | .asset id => push id
  | .helper h => pushHelper h

end TemplateCompiler.Print
