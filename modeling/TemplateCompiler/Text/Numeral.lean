/-! Decimal numerals with an optional sign, fraction and exponent, and the words for infinity
and for no number. -/
namespace TemplateCompiler.Text

def dropSign : List Char → List Char
  | '+' :: rest => rest
  | '-' :: rest => rest
  | s => s

/-- At least one ASCII digit and nothing else. -/
def isDigits (s : List Char) : Bool := !s.isEmpty && s.all Char.isDigit

/-- What may follow the digits of a numeral: nothing, or an exponent. -/
def isExponent : List Char → Bool
  | [] => true
  | c :: rest => (c == 'e' || c == 'E') && isDigits (dropSign rest)

/-- Digits with at most one point, at least one digit on one side of it, and an optional
exponent. -/
def isUnsignedDecimal (s : List Char) : Bool :=
  let whole := s.takeWhile Char.isDigit
  match s.dropWhile Char.isDigit with
  | '.' :: rest =>
    (!whole.isEmpty || !(rest.takeWhile Char.isDigit).isEmpty) &&
      isExponent (rest.dropWhile Char.isDigit)
  | rest => !whole.isEmpty && isExponent rest

/-- The words that count as numerals, in lower case. -/
def numeralWords : List String := ["inf", "infinity", "nan"]

/-- Whether the text is a numeral: an optional sign, then a decimal or one of the words in any
ASCII case. Blanks are not allowed anywhere. -/
def isNumeral (s : List Char) : Bool :=
  let body := dropSign s
  isUnsignedDecimal body || numeralWords.contains (String.ofList (body.map Char.toLower))

end TemplateCompiler.Text
