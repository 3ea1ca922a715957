import TemplateCompiler.Text.Blank
import TemplateCompiler.Text.Identifier

/-! Tokens of an expression: quoted strings, stretches of template-literal text, numbers, names
and single other characters. The scanner never fails, loses no character, and notes for every
name what stands around it. -/
namespace TemplateCompiler.Expression

/-- Splits the text after an opening quote behind its closing quote. A backslash takes the
character after it along; a string without closing quote reaches to the end. -/
def closeQuote (quote : Char) : List Char → List Char × List Char
  | [] => ([], [])
  | c :: rest =>
    if c == '\\' then
      match rest with
      | [] => ([c], [])
      | d :: rest' =>
        let (text, r) := closeQuote quote rest'
        (c :: d :: text, r)
    else if c == quote then ([c], rest)
    else
      let (text, r) := closeQuote quote rest
      (c :: text, r)

/-- A stretch of template-literal text, up to and with its closing backtick or the opening
`$` and brace of a hole. -/
structure TemplateText where
  text : List Char
  rest : List Char
  /-- Whether the stretch ends by opening a hole. -/
  opensHole : Bool

/-- Splits off a stretch of template-literal text. A backslash takes the character after it
along; text without end reaches to the end. -/
def templateText : List Char → TemplateText
  | [] => ⟨[], [], false⟩
  | c :: rest =>
    if c == '\\' then
      match rest with
      | [] => ⟨[c], [], false⟩
      | d :: rest' =>
        let t := templateText rest'
        { t with text := c :: d :: t.text }
    else if c == '\x60' then ⟨[c], rest, false⟩
    else if c == '$' && rest.head? == some '\x7b' then ⟨['$', '\x7b'], rest.tail, true⟩
    else
      let t := templateText rest
      { t with text := c :: t.text }

theorem closeQuote_append (quote : Char) (s : List Char) :
    (closeQuote quote s).1 ++ (closeQuote quote s).2 = s := by
  fun_induction closeQuote quote s <;> simp_all

theorem templateText_append (s : List Char) :
    (templateText s).text ++ (templateText s).rest = s := by
  fun_induction templateText s with
  | case5 c rest _ _ h =>
    simp only [Bool.and_eq_true, beq_iff_eq] at h
    obtain ⟨rfl, h⟩ := h
    obtain ⟨r, rfl⟩ := List.head?_eq_some_iff.1 h
    rfl
  | _ => simp_all +zetaDelta

theorem length_closeQuote_le (quote : Char) (s : List Char) :
    (closeQuote quote s).2.length ≤ s.length := by
  have h := congrArg List.length (closeQuote_append quote s)
  simp only [List.length_append] at h
  omega

theorem length_templateText_le (s : List Char) : (templateText s).rest.length ≤ s.length := by
  have h := congrArg List.length (templateText_append s)
  simp only [List.length_append] at h
  omega

/-- What an open brace belongs to. -/
inductive Brace where
  /-- An object literal. -/
  | object
  /-- The body of an arrow function. -/
  | block
  /-- A hole in a template literal. -/
  | hole
  deriving DecidableEq, Repr

/-- A name and its surroundings. -/
structure NameToken where
  name : List Char
  /-- All that stands before the name, from the nearest character to the farthest. -/
  before : List Char
  /-- All that stands after the name. -/
  after : List Char
  /-- The innermost brace that is open before the name. -/
  brace : Option Brace
  deriving DecidableEq, Repr

inductive Token where
  | quoted (text : List Char)
  | templateText (text : List Char)
  | number (text : List Char)
  | name (n : NameToken)
  | symbol (c : Char)
  deriving DecidableEq, Repr

def Token.text : Token → List Char
  | quoted t => t
  | templateText t => t
  | number t => t
  | name n => n.name
  | symbol c => [c]

/-- The last significant character before a place and those before it. -/
def significantBefore (before : List Char) : List Char := before.dropWhile Text.isAsciiBlank

/-- Whether the character is a quote of either sort. -/
def isQuote (c : Char) : Bool := c == '\x27' || c == '\x22'

/-- The characters that a number goes on with; it takes letters along. -/
def isNumberPart (c : Char) : Bool := c.isAlphanum || c == '.' || c == '_'

/-- What a brace that opens after this text belongs to: a function body after an arrow, an object
literal otherwise. -/
def openedBrace (before : List Char) : Brace :=
  match significantBefore before with
  | '>' :: '=' :: _ => .block
  | _ => .object

/-- Whether a number starts here: a digit, or a point before a digit that does not follow a
name or another number. -/
def startsNumber (before : List Char) (c : Char) (rest : List Char) : Bool :=
  c.isDigit ||
    (c == '.' && rest.head?.any Char.isDigit &&
      !(significantBefore before).head?.any Text.isIdentifierPart)

/-- The tokens of an expression, given what stands before it and the braces open there. -/
def tokensFrom (before : List Char) (braces : List Brace) (s : List Char) : List Token :=
  match s with
  | [] => []
  | c :: rest =>
    if isQuote c then
      let p := closeQuote c rest
      have := length_closeQuote_le c rest
      .quoted (c :: p.1) :: tokensFrom (p.1.reverse ++ c :: before) braces p.2
    else if c == '\x60' then
      let t := templateText rest
      have := length_templateText_le rest
      .templateText (c :: t.text) :: tokensFrom (t.text.reverse ++ c :: before)
        (if t.opensHole then .hole :: braces else braces) t.rest
    else if c == '\x7b' then
      .symbol c :: tokensFrom (c :: before) (openedBrace before :: braces) rest
    else if c == '\x7d' then
      match braces with
      | .hole :: outer =>
        let t := templateText rest
        have := length_templateText_le rest
        .templateText (c :: t.text) :: tokensFrom (t.text.reverse ++ c :: before)
          (if t.opensHole then .hole :: outer else outer) t.rest
      | _ => .symbol c :: tokensFrom (c :: before) braces.tail rest
    else if startsNumber before c rest then
      let text := rest.takeWhile isNumberPart
      have := (List.dropWhile_sublist isNumberPart (l := rest)).length_le
      .number (c :: text) :: tokensFrom (text.reverse ++ c :: before) braces
        (rest.dropWhile isNumberPart)
    else if Text.isIdentifierStart c then
      let text := rest.takeWhile Text.isIdentifierPart
      let after := rest.dropWhile Text.isIdentifierPart
      have := (List.dropWhile_sublist Text.isIdentifierPart (l := rest)).length_le
      .name ⟨c :: text, before, after, braces.head?⟩ ::
        tokensFrom (text.reverse ++ c :: before) braces after
    else .symbol c :: tokensFrom (c :: before) braces rest
termination_by s.length

def tokens (s : List Char) : List Token := tokensFrom [] [] s

/-- Scanning loses nothing: the tokens, one behind the other, spell the text. -/
theorem flatMap_text_tokensFrom (before : List Char) (braces : List Brace) (s : List Char) :
    (tokensFrom before braces s).flatMap Token.text = s := by
  fun_induction tokensFrom before braces s <;>
    simp_all +zetaDelta [Token.text, closeQuote_append, templateText_append,
      List.takeWhile_append_dropWhile]

end TemplateCompiler.Expression
