import TemplateCompiler.Component
import TemplateCompiler.Options
import TemplateCompiler.Print.Tree

/-! Printing of a whole program: the preamble, which gives the runtime's helpers their local names,
and the render function. -/
namespace TemplateCompiler.Print

def runtimeName : String := "_ChibiVue"

/-- The statement that gets hold of the runtime. -/
def runtimeStatement (o : OutputOptions) : String :=
  if o.browser then "const " ++ runtimeName ++ " = " ++ o.runtimeGlobal ++ "\n"
  else "import * as " ++ runtimeName ++ " from '" ++ o.runtimeModule ++ "'\n"

def helperEntry (h : Helper) : String := h.name ++ ": " ++ h.localName

def helperStatement : String :=
  "const \x7b " ++ ", ".intercalate (Helper.all.map helperEntry) ++ " \x7d = "
    ++ runtimeName ++ "\n"

/-- Prints the preamble. In a browser it ends by returning the function that follows. -/
def preamble (o : OutputOptions) : PrintM Unit := do
  push (runtimeStatement o)
  push helperStatement
  newline
  if o.browser then push "return "

/-- The statement that looks a component up. -/
def assetStatement (component : String) : String :=
  let (name, isSelf) := Component.split component
  "const " ++ Component.holder name ++ " = " ++ Helper.resolveComponent.localName ++ "(" ++
    Text.Quoted.literal name ++ (if isSelf then ", true" else "") ++ ")"

def assets : List String → PrintM Unit
  | [] => pure ()
  | [component] => push (assetStatement component)
  | component :: rest => do
    push (assetStatement component)
    newline
    assets rest

/-- Prints what the render function returns: nothing for an empty template. -/
def rootCode (r : Root) : PrintM Unit :=
  match r.code with
  | some (.vnode v) => vnode v
  | some (.child c) => child c
  | none => if r.children.isEmpty then pure () else refuse (.of .missingCode r.span)

def renderFunction (r : Root) : PrintM Unit := do
  push "function render(_ctx) \x7b "
  indent
  if !r.components.isEmpty then
    assets r.components
    newline
  push "return "
  rootCode r
  deindent
  push " \x7d"

structure Program where
  code : String
  /-- The preamble, if it is not part of the code. -/
  preamble : String
  deriving DecidableEq, Repr, Inhabited

/-- The text that a step prints, from an empty writer. -/
def run (step : PrintM Unit) : Except Diagnostic String :=
  match step {} with
  | .ok _ w => .ok w.code
  | .error d _ => .error d

/-- Prints a lowered template. A template that has not been lowered is refused, unless it is
empty. In a browser or inside setup code, preamble and function are one text. -/
def program (o : OutputOptions) (r : Root) : Except Diagnostic Program :=
  if !r.transformed && !r.children.isEmpty then
    .error ⟨.missingCode, some r.span, some "root was not transformed"⟩
  else if o.browser || o.inline then do
    let code ← run do
      preamble o
      renderFunction r
    return ⟨code, ""⟩
  else do
    let preamble ← run (preamble o)
    let code ← run (renderFunction r)
    return ⟨code, preamble⟩

end TemplateCompiler.Print
