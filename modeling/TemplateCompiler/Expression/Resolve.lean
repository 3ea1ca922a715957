import TemplateCompiler.Expression
import TemplateCompiler.Expression.Access
import TemplateCompiler.Expression.Arrow

/-! Resolution of the names in an expression. Every token but a free name stays as it is; a free
name becomes the code that reaches its value. -/
namespace TemplateCompiler.Expression

/-- Whether the two bytes before a point start inside a character, given what stands before the
point, nearest first. With fewer than two bytes there is nothing to look at. -/
def splitsCharacter : List Char → Bool
  | [] => false
  | c :: rest =>
    if c.utf8Size == 1 then rest.head?.any fun d => d.utf8Size != 1 else c.utf8Size != 2

/-- Whether a name after this text is a member: it follows a point that does not end a spread
mark. To tell, the two bytes before the point are read; there is no answer if they start inside
a character. -/
def isMember? (before : List Char) : Option Bool :=
  match significantBefore before with
  | '.' :: earlier =>
    if splitsCharacter earlier then none else some (!(['.', '.'].isPrefixOf earlier))
  | _ => some false

namespace NameToken

def text (n : NameToken) : String := String.ofList n.name

/-- The first significant character after the name. -/
def next? (n : NameToken) : Option Char := (n.after.dropWhile Text.isAsciiBlank).head?

/-- Whether the name stands where an object literal has a key: the innermost brace belongs to
one, and the name follows a brace or a comma. Other brackets are not looked at. -/
def atKey (n : NameToken) : Bool :=
  n.brace == some .object &&
    (significantBefore n.before).head?.any fun c => c == '\x7b' || c == ','

/-- Whether the name is the key of a property with a value. -/
def isKey (n : NameToken) : Bool := n.atKey && n.next? == some ':'

/-- Whether the name is a property whose value is the variable of that name. -/
def isShorthand (n : NameToken) : Bool :=
  n.atKey && n.next?.any fun c => c == ',' || c == '\x7d'

end NameToken

structure Image where
  text : List Char
  /-- Whether the token refers to a variable. -/
  isReference : Bool := false
  /-- Whether the value of that variable may change between renders. -/
  isDynamic : Bool := false
  usesUnref : Bool := false
  deriving DecidableEq, Repr

def NameToken.referenceImage (options : LoweringOptions) (scope : Scope)
    (arrows : List ArrowScope) (n : NameToken) : Image :=
  if arrows.any fun a => a.covers n.text n.before.length then ⟨n.name, true, true, false⟩
  else
    match access options scope n.text with
    | .kept isDynamic => ⟨n.name, true, isDynamic, false⟩
    | .replaced code usesUnref =>
      let label := if n.isShorthand then n.name ++ [':', ' '] else []
      ⟨label ++ code.toList, true, true, usesUnref⟩

/-- The image of a name: members, words of the language and keys of object literals are not
variables. There is none if it cannot be told whether the name is a member. -/
def NameToken.image? (options : LoweringOptions) (scope : Scope) (arrows : List ArrowScope)
    (n : NameToken) : Option Image :=
  match isMember? n.before with
  | none => none
  | some isMember =>
    if isMember || ReservedNames.isKeyword n.text || n.isKey then some ⟨n.name, false, false, false⟩
    else some (n.referenceImage options scope arrows)

def Token.image? (options : LoweringOptions) (scope : Scope) (arrows : List ArrowScope) :
    Token → Option Image
  | .name n => n.image? options scope arrows
  | t => some { text := t.text }

structure Resolved where
  code : String
  constancy : Constancy
  usesUnref : Bool
  deriving DecidableEq, Repr

def Resolved.ofImages (images : List Image) : Resolved where
  code := String.ofList (images.flatMap Image.text)
  constancy :=
    if !images.any Image.isReference then .canStringify
    else if !images.any Image.isDynamic then .canSkipPatch
    else .notConstant
  usesUnref := images.any Image.usesUnref

/-- Resolves the names of an expression. There is no answer for some expressions in which a
point follows characters beyond ASCII; see `isMember?`. -/
def resolve? (options : LoweringOptions) (scope : Scope) (source : String) : Option Resolved :=
  let text := source.toList
  ((tokens text).mapM (Token.image? options scope (arrowScopes text))).map Resolved.ofImages

end TemplateCompiler.Expression
