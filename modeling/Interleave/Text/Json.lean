import Interleave.Text.Quoted

/-! Texts as JSON strings. Angle brackets, the ampersand and the two line separators beyond ASCII are escaped
as well, so that the result can stand inside HTML and script sources. -/

namespace Interleave.Text

def jsonChar (c : Char) : List Char :=
  let code := c.toNat
  if c = '"' ∨ c = '\\' then ['\\', c]
  else if code = 8 then ['\\', 'b']
  else if code = 12 then ['\\', 'f']
  else if c = '\n' then ['\\', 'n']
  else if c = '\r' then ['\\', 'r']
  else if c = '\t' then ['\\', 't']
  else if code < 0x20 ∨ c = '<' ∨ c = '>' ∨ c = '&' ∨ code = 0x2028 ∨ code = 0x2029 then
    '\\' :: 'u' :: hexDigits 4 code
  else [c]

def jsonQuote (s : String) : String :=
  String.ofList ('"' :: s.toList.flatMap jsonChar ++ ['"'])

end Interleave.Text
