import TemplateCompiler.Text.Alphabetic

/-! Identifiers of the expression language: a letter, an underscore or a dollar sign, then
those and ASCII digits. Letters beyond ASCII are the Alphabetic ones, and digits beyond ASCII
never belong to an identifier. -/
namespace TemplateCompiler.Text

def isIdentifierStart (c : Char) : Bool :=
  c.isAlpha || c == '_' || c == '$' || isWideAlphabetic c

def isIdentifierPart (c : Char) : Bool := isIdentifierStart c || c.isDigit

/-- Whether the text is exactly one identifier. -/
def isIdentifierText : List Char → Bool
  | [] => false
  | c :: rest => isIdentifierStart c && rest.all isIdentifierPart

def isIdentifier (s : String) : Bool := isIdentifierText s.toList

/-- The rest of the text after the identifier it starts with, if it starts with one. -/
def afterIdentifier? : List Char → Option (List Char)
  | [] => none
  | c :: rest => if isIdentifierStart c then some (rest.dropWhile isIdentifierPart) else none

theorem length_lt_of_afterIdentifier? {s r : List Char} (h : afterIdentifier? s = some r) :
    r.length < s.length := by
  cases s with
  | nil => simp [afterIdentifier?] at h
  | cons c rest =>
    simp only [afterIdentifier?] at h
    split at h
    · cases h
      have := (List.dropWhile_sublist isIdentifierPart (l := rest)).length_le
      simp only [List.length_cons]
      omega
    · cases h

end TemplateCompiler.Text
