import DocAnnotations.Text.Hex
import DocAnnotations.Text.Printable

/-!
Text between quotes, as messages show it. Single quotes are used unless the text holds a single
quote and no double quote.
-/

namespace DocAnnotations.Text

/-- The quote that stands around the text. -/
def quoteFor (cs : List Char) : Char :=
  if cs.contains '\'' && !cs.contains '"' then '"' else '\''

/-- A character inside quotes: the quote, the backslash and what cannot be shown are escaped. -/
def escapeIn (quote c : Char) : List Char :=
  if c = quote ∨ c = '\\' then ['\\', c]
  else if c = '\n' then ['\\', 'n']
  else if c = '\r' then ['\\', 'r']
  else if c = '\t' then ['\\', 't']
  else if isPrintable c then [c]
  else if c.toNat < 0x100 then '\\' :: 'x' :: hexDigits 2 c.toNat
  else if c.toNat < 0x10000 then '\\' :: 'u' :: hexDigits 4 c.toNat
  else '\\' :: 'U' :: hexDigits 8 c.toNat

/-- The text in quotes. -/
def quoted (s : String) : String :=
  let cs := s.toList
  let quote := quoteFor cs
  String.ofList (quote :: cs.flatMap (escapeIn quote) ++ [quote])

example : quoted "it" = "'it'" := by decide
example : quoted "it's" = "\"it's\"" := by decide
example : quoted "'\"\n" = "'\\'\"\\n'" := by decide
example : quoted "\x07é\u200b" = "'\\x07é\\u200b'" := by decide +kernel

end DocAnnotations.Text
