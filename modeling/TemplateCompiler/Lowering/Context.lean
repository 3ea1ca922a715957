import TemplateCompiler.Diagnostic
import TemplateCompiler.Helper
import TemplateCompiler.Options
import TemplateCompiler.Scope
import TemplateCompiler.Template.Query

/-! The state of a lowering: what has been registered so far, the names in scope, and where in the
tree the walk stands. -/
namespace TemplateCompiler

/-- Why a lowering stops. -/
inductive Fault where
  /-- The template is refused. -/
  | refused (d : Diagnostic)
  /-- A name could not be classified, because the bytes before it start inside a character. -/
  | splitCharacter
  /-- The walk went deeper than its limit. -/
  | tooDeep
  deriving DecidableEq, Repr

/-- Where in the tree the walk stands. -/
structure Cursor where
  /-- The kind of the node being visited. -/
  current : Option NodeKind := none
  /-- The kind of its parent. -/
  parent : Option NodeKind := none
  /-- Its place among the siblings that have been kept. -/
  index : Nat := 0
  /-- Whether the node has asked to be removed. -/
  removed : Bool := false
  deriving DecidableEq, Repr, Inhabited

structure Context where
  options : LoweringOptions := {}
  cursor : Cursor := {}
  helpers : HelperSet := .empty
  components : List String := []
  scope : Scope := {}
  deriving Inhabited

namespace Context

def addHelper (c : Context) (h : Helper) : Context := { c with helpers := c.helpers.insert h }

/-- Registers a component, unless it is registered already. -/
def addComponent (c : Context) (name : String) : Context :=
  if c.components.contains name then c else { c with components := c.components ++ [name] }

def addNames (c : Context) (names : List String) : Context := { c with scope := c.scope.add names }

def removeNames (c : Context) (names : List String) : Context :=
  { c with scope := c.scope.remove names }

def requestRemoval (c : Context) : Context := { c with cursor.removed := true }

def setCurrent (c : Context) (kind : NodeKind) : Context := { c with cursor.current := some kind }

end Context

/-- Steps of a lowering that need no place in the tree. A step that stops keeps the state it has
reached. -/
abbrev LowerM := EStateM Fault Context

namespace LowerM

def helper (h : Helper) : LowerM Unit := modify fun c => c.addHelper h

def component (name : String) : LowerM Unit := modify fun c => c.addComponent name

def refuse {α : Type} (d : Diagnostic) : LowerM α := throw (.refused d)

end LowerM

end TemplateCompiler
