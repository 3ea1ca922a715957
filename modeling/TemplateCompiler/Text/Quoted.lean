import TemplateCompiler.Text.Hex

/-! Double-quoted string literals as they stand in the generated code. -/
namespace TemplateCompiler.Text.Quoted

/-- The characters that stand for `c` inside a literal: a short escape where there is one, four
hexadecimal digits for the other control characters, and `c` itself for all else. -/
def escape (c : Char) : List Char :=
  if c == '\x22' then ['\\', '\x22']
  else if c == '\\' then ['\\', '\\']
  else if c == '\n' then ['\\', 'n']
  else if c == '\r' then ['\\', 'r']
  else if c == '\t' then ['\\', 't']
  else if c == '\x08' then ['\\', 'b']
  else if c == '\x0c' then ['\\', 'f']
  else if c.toNat < 0x20 then ['\\', 'u', '0', '0', hexDigit (c.toNat / 16), hexDigit c.toNat]
  else [c]

/-- The literal for a text, quotes included. -/
def encode (s : List Char) : List Char := '\x22' :: (s.flatMap escape ++ ['\x22'])

def literal (s : String) : String := String.ofList (encode s.toList)

end TemplateCompiler.Text.Quoted
