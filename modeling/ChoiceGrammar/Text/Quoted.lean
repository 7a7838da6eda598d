import ChoiceGrammar.Text.GraphemeExtend
import ChoiceGrammar.Text.Unprintable

/-!
# Quoted text

Messages show a text between quotes. The quote, the backslash and the common controls have short
escapes; every other character that would not show by itself is written as its code point in
hexadecimal, between braces.
-/

namespace ChoiceGrammar.Text

/-- How a character is written between quotes. -/
def escape (c : Char) : List Char :=
  match c with
  | '\x00' => ['\\', '0']
  | '\t' => ['\\', 't']
  | '\r' => ['\\', 'r']
  | '\n' => ['\\', 'n']
  | '\\' => ['\\', '\\']
  | '"' => ['\\', '"']
  | c =>
      if isGraphemeExtend c || isUnprintable c then
        ['\\', 'u', '\x7b'] ++ Nat.toDigits 16 c.toNat ++ ['\x7d']
      else
        [c]

/-- The text between quotes. -/
def quoted (text : String) : String := .ofList ('"' :: (text.toList.flatMap escape ++ ['"']))

/-- The character between single quotes, which alone are escaped among the quotes. -/
def quotedChar (c : Char) : String :=
  let inner :=
    match c with
    | '\x27' => ['\\', '\x27']
    | '"' => ['"']
    | c => escape c
  .ofList ('\x27' :: (inner ++ ['\x27']))

end ChoiceGrammar.Text
