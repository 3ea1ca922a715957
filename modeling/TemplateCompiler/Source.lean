/-! Positions and spans of the template text. -/
namespace TemplateCompiler

/-- A place in the template: an offset in UTF-8 bytes from 0, a line and a column from 1. -/
structure Position where
  offset : Nat
  line : Nat
  column : Nat
  deriving DecidableEq, Repr, Inhabited

structure Span where
  start : Position
  stop : Position
  text : String
  deriving DecidableEq, Repr, Inhabited

namespace Position

def origin : Position := ⟨0, 1, 1⟩

/-- The place after a character: a line feed starts a new line, every other character is one
column wide. -/
def step (p : Position) (c : Char) : Position :=
  if c == '\n' then ⟨p.offset + c.utf8Size, p.line + 1, 1⟩
  else ⟨p.offset + c.utf8Size, p.line, p.column + 1⟩

def advance (p : Position) (text : List Char) : Position := text.foldl step p

end Position

namespace Span

/-- The span of a node that no part of the template stands for. -/
def stub : Span := ⟨.origin, .origin, ""⟩

/-- Whether the span stands for no part of the template. Lines and columns do not matter. -/
def isStub (s : Span) : Bool := s.start.offset == 0 && s.stop.offset == 0 && s.text.isEmpty

end Span

end TemplateCompiler
