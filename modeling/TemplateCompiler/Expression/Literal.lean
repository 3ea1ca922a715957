import TemplateCompiler.Text.Numeral

/-! Literal expressions, told by their text alone. -/
namespace TemplateCompiler.Expression

/-- Whether the text starts and ends with the quote, which are two different characters. -/
def isQuotedWith (quote : Char) (s : List Char) : Bool :=
  2 ≤ s.length && s.head? == some quote && s.getLast? == some quote

/-- Whether a text without blanks around it is a literal: a constant word, a numeral, or text
between quotes. What stands between the quotes is not looked at. -/
def isLiteral (s : List Char) : Bool :=
  ["true", "false", "null", "undefined"].contains (String.ofList s) || Text.isNumeral s ||
    isQuotedWith '\x22' s || isQuotedWith '\x27' s

end TemplateCompiler.Expression
