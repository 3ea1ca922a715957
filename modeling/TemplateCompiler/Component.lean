import TemplateCompiler.Text.Case

/-! The names under which components are registered while a template is lowered, and the variables
that hold them in the render function. A component that its own template uses carries a mark. -/
namespace TemplateCompiler.Component

/-- The mark behind the name of a component that is its own child. -/
def selfMark : String := "__self"

def registered (tag : String) (isSelf : Bool) : String := if isSelf then tag ++ selfMark else tag

/-- The name of a registered component, and whether it carries the mark. A tag that ends like the
mark cannot be told from a marked one. -/
def split (name : String) : String × Bool :=
  let mark := selfMark.toList
  let chars := name.toList
  if mark.isSuffixOf chars then (String.ofList (chars.take (chars.length - mark.length)), true)
  else (name, false)

def holder (name : String) : String := Text.assetId name "component"

/-- The form in which names of components are compared. -/
def canonicalName (name : String) : String := Text.capitalize (Text.camelize name)

end TemplateCompiler.Component
