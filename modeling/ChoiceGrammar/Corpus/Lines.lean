/-!
# Lines of a text

A line ends with a line feed, or with a carriage return and a line feed. What follows the last line
feed is a line unless it is empty. Lines are trimmed of spaces, tabs, carriage returns and line
feeds, and of no other blanks.
-/

namespace ChoiceGrammar.Corpus

/-- The lines of a text, the first of which has begun with `pending`, latest first. -/
def linesFrom : (pending text : List Char) → List (List Char)
  | [], [] => []
  | c :: pending, [] => [(c :: pending).reverse]
  | pending, '\r' :: '\n' :: text => pending.reverse :: linesFrom [] text
  | pending, '\n' :: text => pending.reverse :: linesFrom [] text
  | pending, c :: text => linesFrom (c :: pending) text

def lines (text : List Char) : List (List Char) := linesFrom [] text

def isBlank (c : Char) : Bool := c == ' ' || c == '\t' || c == '\r' || c == '\n'

/-- A line without the blanks at its ends. -/
def trim (line : List Char) : List Char :=
  ((line.dropWhile isBlank).reverse.dropWhile isBlank).reverse

end ChoiceGrammar.Corpus
