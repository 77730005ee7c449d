import StepAndRepeat.Text.CodeText
import StepAndRepeat.Text.Printable

namespace StepAndRepeat.Text

def quoteFor (t : CodeText) : Char :=
  if t.contains (.char '\x27') && !t.contains (.char '"') then '"' else '\x27'

def escapeFor (quote c : Char) : Text :=
  if c = quote ∨ c = '\\' then ['\\', c]
  else if c = '\t' then ['\\', 't']
  else if c = '\n' then ['\\', 'n']
  else if c = '\r' then ['\\', 'r']
  else if isPrintable c then [c]
  else if c.toNat < 0x100 then '\\' :: 'x' :: hex 2 c.toNat
  else if c.toNat < 0x10000 then '\\' :: 'u' :: hex 4 c.toNat
  else '\\' :: 'U' :: hex 8 c.toNat

def escapePoint (quote : Char) : CodePoint → Text
  | .char c => escapeFor quote c
  | .half k => '\\' :: 'u' :: hex 4 (0xD800 + k)

def quoted (t : CodeText) : Text :=
  quoteFor t :: t.flatMap (escapePoint (quoteFor t)) ++ [quoteFor t]

end StepAndRepeat.Text
