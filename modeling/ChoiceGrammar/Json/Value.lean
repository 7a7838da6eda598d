/-!
# JSON values and their compact text

`Value.compact` writes a value without any blanks, members in the order given. In strings the quote,
the backslash and the characters below U+0020 are escaped, and nothing else is.
-/

namespace ChoiceGrammar.Json

/-- JSON data; numbers are natural numbers. -/
inductive Value where
  | null
  | bool (value : Bool)
  | number (value : Nat)
  | string (text : String)
  | array (items : List Value)
  | object (members : List (String × Value))

/-- The escape of a character that may not stand in a string as it is. -/
def escape (c : Char) : List Char :=
  match c with
  | '"' => ['\\', '"']
  | '\\' => ['\\', '\\']
  | '\x08' => ['\\', 'b']
  | '\x0c' => ['\\', 'f']
  | '\n' => ['\\', 'n']
  | '\r' => ['\\', 'r']
  | '\t' => ['\\', 't']
  | c =>
      if c.toNat < 0x20 then
        ['\\', 'u', '0', '0', Nat.digitChar (c.toNat / 16), Nat.digitChar (c.toNat % 16)]
      else
        [c]

def quotedChars (text : String) : List Char := '"' :: (text.toList.flatMap escape ++ ['"'])

namespace Value

mutual
def chars : Value → List Char
  | null => "null".toList
  | bool true => "true".toList
  | bool false => "false".toList
  | number n => Nat.toDigits 10 n
  | string text => quotedChars text
  | array [] => ['[', ']']
  | array (item :: items) => '[' :: (item.chars ++ itemChars items)
  | object [] => ['\x7b', '\x7d']
  | object ((key, value) :: members) =>
      '\x7b' :: (quotedChars key ++ ':' :: (value.chars ++ memberChars members))

/-- The items after the first, each after a comma, and the closing bracket. -/
def itemChars : List Value → List Char
  | [] => [']']
  | item :: items => ',' :: (item.chars ++ itemChars items)

/-- The members after the first, each after a comma, and the closing brace. -/
def memberChars : List (String × Value) → List Char
  | [] => ['\x7d']
  | (key, value) :: members =>
      ',' :: (quotedChars key ++ ':' :: (value.chars ++ memberChars members))
end

/-- The text of a value without blanks. -/
def compact (value : Value) : String := .ofList value.chars

end Value

end ChoiceGrammar.Json
