import TemplateCompiler.Lowering.Context

/-! The interface of directives that become properties of a virtual node. -/
namespace TemplateCompiler

/-- What a directive contributes to its element. -/
structure Contribution where
  properties : List Property := []
  /-- The runtime directive that the element needs besides. -/
  runtime : Option Helper := none

abbrev DirectiveLowering := Element → Directive → LowerM Contribution

/-- The lowerings known by the name of their directive. -/
abbrev DirectiveTable := String → Option DirectiveLowering

/-- The text of a simple expression is blank. Compound expressions never count as blank. -/
def Expression.isBlank (e : Expression) : Bool := e.simpleContent?.any Text.isAllBlank

end TemplateCompiler
