import TemplateCompiler.Text.Blank
import TemplateCompiler.Text.Word

/-! Expressions that start like a function. -/
namespace TemplateCompiler.Expression

/-- Whether an arrow follows, after blanks and an optional type annotation. The annotation is a
colon and at least one character up to the next equals sign. -/
def arrowFollows (s : List Char) : Bool :=
  match s.dropWhile Text.isBlank with
  | '=' :: '>' :: _ => true
  | ':' :: c :: rest =>
    c != '=' && ['=', '>'].isPrefixOf (rest.dropWhile (· != '='))
  | _ => false

def afterWord? (word s : List Char) : Option (List Char) :=
  if word.isPrefixOf s then some (s.drop word.length) else none

/-- Whether a parameter list in round brackets, then an arrow follows. The list ends at the first
closing bracket. -/
def listAndArrowFollow (s : List Char) : Bool :=
  match s with
  | '(' :: rest =>
    match rest.dropWhile (· != ')') with
    | _ :: rest' => arrowFollows rest'
    | [] => false
  | _ => false

/-- Whether the text starts like an arrow function: with a name or a parameter list, which may be
marked `async`, and an arrow. -/
def startsArrow (s : List Char) : Bool :=
  (s.head?.any Text.isNameChar && arrowFollows (s.dropWhile Text.isNameChar)) ||
    listAndArrowFollow s ||
    ((afterWord? "async".toList s).any fun r => listAndArrowFollow (r.dropWhile Text.isBlank))

/-- Whether an opening round bracket follows the word `function`, after an optional name, which
needs a blank before it. -/
def parametersFollow (s : List Char) : Bool :=
  let r := s.dropWhile Text.isBlank
  r.head? == some '(' ||
    (s.head?.any Text.isBlank && r.head?.any Text.isNameChar &&
      ((r.dropWhile Text.isNameChar).dropWhile Text.isBlank).head? == some '(')

/-- Whether the text starts like a function written with the word `function`, which may be marked
`async`. -/
def startsFunction (s : List Char) : Bool :=
  (afterWord? "function".toList s).any parametersFollow ||
    ((afterWord? "async".toList s).any fun r =>
      r.head?.any Text.isBlank &&
        (afterWord? "function".toList (r.dropWhile Text.isBlank)).any parametersFollow)

def looksLikeFunction (s : List Char) : Bool :=
  let text := s.dropWhile Text.isBlank
  startsArrow text || startsFunction text

end TemplateCompiler.Expression
