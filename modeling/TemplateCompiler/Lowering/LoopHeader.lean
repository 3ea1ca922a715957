import TemplateCompiler.Diagnostic
import TemplateCompiler.Expression
import TemplateCompiler.Text.Blank
import TemplateCompiler.Text.Identifier

/-! Loop headers: `item in items` and `(item, key) of items`. -/
namespace TemplateCompiler.Lowering

/-- A stretch of a header: all that stands before it, and its own text. -/
structure Piece where
  before : List Char
  text : List Char
  deriving DecidableEq, Repr

namespace Piece

def trim (p : Piece) : Piece :=
  ⟨p.before ++ p.text.takeWhile Text.isBlank, Text.trim p.text⟩

/-- Sets the texts of a list behind each other, with one separator between them. -/
def placed (before : List Char) (separator : Char) : List (List Char) → List Piece
  | [] => []
  | t :: ts => ⟨before, t⟩ :: placed (before ++ t ++ [separator]) separator ts

/-- The parts of the piece between commas. -/
def splitAtCommas (p : Piece) : List Piece := placed p.before ',' (p.text.splitOn ',')

/-- The piece without a pair of round brackets around it; nothing if there is only one of
the two. -/
def unbracket? (p : Piece) : Option Piece :=
  match p.text.head? == some '(', p.text.getLast? == some ')' with
  | true, true => some ⟨p.before ++ ['('], p.text.tail.dropLast⟩
  | false, false => some p
  | _, _ => none

end Piece

def separatorWords : List (List Char) := [['i', 'n'], ['o', 'f']]

/-- Splits off a separator: blanks, a separator word, blanks. Something that is not blank has to
follow. -/
def takeSeparator? (s : List Char) : Option (List Char × List Char) :=
  let gap := s.takeWhile Text.isBlank
  let afterGap := s.dropWhile Text.isBlank
  let afterWord := afterGap.drop 2
  let gap' := afterWord.takeWhile Text.isBlank
  let rest := afterWord.dropWhile Text.isBlank
  if !gap.isEmpty && separatorWords.contains (afterGap.take 2) && !gap'.isEmpty
      && !rest.isEmpty then
    some (gap ++ afterGap.take 2 ++ gap', rest)
  else none

/-- The left side and the source of a header, divided at its first separator. What has been
passed over so far is given from the nearest character to the farthest. -/
def divideFrom (passed : List Char) (s : List Char) : Option (Piece × Piece) :=
  match takeSeparator? s with
  | some (separator, rest) =>
    some (⟨[], passed.reverse⟩, ⟨passed.reverse ++ separator, Text.trimRight rest⟩)
  | none =>
    match s with
    | [] => none
    | c :: rest => divideFrom (c :: passed) rest

structure HeaderPieces where
  value : Piece
  key : Option Piece
  source : Piece
  deriving DecidableEq, Repr

/-- The pieces of a header: one or two names, which may stand in round brackets, a separator and
a source. -/
def headerPieces? (content : List Char) : Option HeaderPieces := do
  let (left, source) ← divideFrom [] content
  let inner ← left.trim.unbracket?
  match inner.splitAtCommas.map Piece.trim with
  | [value] => if Text.isIdentifierText value.text then some ⟨value, none, source⟩ else none
  | [value, key] =>
    if Text.isIdentifierText value.text && Text.isIdentifierText key.text then
      some ⟨value, some key, source⟩
    else none
  | _ => none

/-- The place of a piece, as far as the place of the whole header is known. -/
def Piece.spanIn (exp : Simple) (p : Piece) : Span :=
  if exp.span.isStub || exp.span.text != exp.content then .stub
  else
    let start := exp.span.start.advance p.before
    ⟨start, start.advance p.text, String.ofList p.text⟩

def Piece.toSimple (exp : Simple) (p : Piece) : Simple :=
  .code (String.ofList p.text) (p.spanIn exp)

structure HeaderParts where
  source : Simple
  value : Simple
  key : Option Simple
  deriving DecidableEq, Repr

def parseHeader (exp : Simple) : Except Diagnostic HeaderParts :=
  match headerPieces? exp.content.toList with
  | none => .error (.of .forMalformed exp.span)
  | some p => .ok ⟨p.source.toSimple exp, p.value.toSimple exp, p.key.map (Piece.toSimple exp)⟩

end TemplateCompiler.Lowering
