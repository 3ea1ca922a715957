import TemplateCompiler.Helper
import TemplateCompiler.Source

/-! Expressions of a template: simple ones, which are one piece of text, and compound ones,
which are sequences of parts. -/
namespace TemplateCompiler

/-- How far the value of an expression is known before rendering, from least to most. -/
inductive Constancy where
  | notConstant
  | canSkipPatch
  | canCache
  | canStringify
  deriving DecidableEq, Repr, Inhabited

/-- Literal text between the tags of a template. -/
structure TextNode where
  content : String
  span : Span := .stub
  deriving DecidableEq, Repr, Inhabited

/-- An expression that is one piece of text. A static one stands for the string it spells;
any other is code. -/
structure Simple where
  content : String
  isStatic : Bool := false
  constancy : Constancy := .notConstant
  /-- The names that the expression declares, if it declares any. -/
  identifiers : Option (List String) := none
  isHandlerKey : Bool := false
  span : Span := .stub
  deriving DecidableEq, Repr, Inhabited

namespace Simple

def code (content : String) (span : Span) : Simple := { content, span }

/-- A static string at a place of the template. -/
def fixed (content : String) (span : Span) : Simple :=
  { content, isStatic := true, constancy := .canStringify, span }

end Simple

mutual

inductive Expression where
  | simple (s : Simple)
  | compound (c : Compound)

/-- An expression written as a sequence of parts. -/
structure Compound where
  parts : List Part
  identifiers : Option (List String) := none
  isHandlerKey : Bool := false
  span : Span := .stub

inductive Part where
  | simple (s : Simple)
  | compound (c : Compound)
  | interpolation (i : Interpolation)
  | text (t : TextNode)
  | raw (code : String)
  | helper (h : Helper)

/-- An expression whose value is shown as text. -/
structure Interpolation where
  content : Expression
  span : Span := .stub

end

namespace Expression

/-- Whether the expression is a static string. Compound expressions never are. -/
def isStatic : Expression → Bool
  | simple s => s.isStatic
  | compound _ => false

def simpleContent? : Expression → Option String
  | simple s => some s.content
  | compound _ => none

def span : Expression → Span
  | simple s => s.span
  | compound c => c.span

def staticContent? : Expression → Option String
  | simple s => if s.isStatic then some s.content else none
  | compound _ => none

end Expression

end TemplateCompiler
