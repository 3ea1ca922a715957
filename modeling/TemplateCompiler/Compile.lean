import TemplateCompiler.Lowering.Root
import TemplateCompiler.Print.Program

/-! Compilation of a template to the text of a render function. -/
namespace TemplateCompiler

/-- Lowers a template and prints it. The answer holds the lowered template besides the text. -/
def compile (o : Options) (r : Root) : Except Fault (Root × Print.Program) := do
  let lowered ← Lowering.lower o.lowering r
  match Print.program o.output lowered with
  | .error d => throw (.refused d)
  | .ok p => return (lowered, p)

end TemplateCompiler
