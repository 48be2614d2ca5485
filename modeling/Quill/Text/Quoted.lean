import Quill.Text.Graphic

/-!
# Quoted text

A text between double quotes, in which quotes, backslashes and the characters that leave no mark of
their own are written as escapes.
-/

namespace Quill.Text

def codeEscape (c : Char) : List Char :=
  "\\u\x7b".toList ++ Nat.toDigits 16 c.toNat ++ "\x7d".toList

/-- One character of a quoted text; `marks` are the quotation marks that need a backslash. -/
def escapeChar (marks : List Char) (c : Char) : List Char :=
  if c = '\x00' then ['\\', '0']
  else if c = '\t' then ['\\', 't']
  else if c = '\r' then ['\\', 'r']
  else if c = '\n' then ['\\', 'n']
  else if c = '\\' || c ∈ marks then ['\\', c]
  else if isGraphic c then [c]
  else codeEscape c

def quote (text : String) : String :=
  String.ofList ('"' :: text.toList.flatMap (escapeChar ['"']) ++ ['"'])

/-- A single character for a message that stands between single quotes. -/
def escapeAlone (c : Char) : String := String.ofList (escapeChar ['"', '\''] c)

end Quill.Text
