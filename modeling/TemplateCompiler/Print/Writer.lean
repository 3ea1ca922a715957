import TemplateCompiler.Diagnostic
import TemplateCompiler.Helper
import TemplateCompiler.Text.Quoted

/-! The text of generated code as it grows, with its level of indentation. -/
namespace TemplateCompiler.Print

/-- The text printed so far and the level of indentation. -/
structure Writer where
  code : String := ""
  level : Nat := 0
  deriving DecidableEq, Repr, Inhabited

/-- Steps that print. A step that is refused keeps what it has printed. -/
abbrev PrintM := EStateM Diagnostic Writer

def push (code : String) : PrintM Unit := modify fun w => { w with code := w.code ++ code }

def pushHelper (h : Helper) : PrintM Unit := push h.localName

def pushLiteral (s : String) : PrintM Unit := push (Text.Quoted.literal s)

/-- The break before a line at the given level: two spaces for each level. -/
def lineBreak (level : Nat) : String := String.ofList ('\n' :: List.replicate (2 * level) ' ')

def newline : PrintM Unit := modify fun w => { w with code := w.code ++ lineBreak w.level }

/-- Goes one level in and starts a new line. -/
def indent : PrintM Unit := do
  modify fun w => { w with level := w.level + 1 }
  newline

/-- Goes one level out, if there is one, and starts a new line. -/
def deindent : PrintM Unit := do
  modify fun w => { w with level := w.level - 1 }
  newline

def refuse {α : Type} (d : Diagnostic) : PrintM α := throw d

end TemplateCompiler.Print
