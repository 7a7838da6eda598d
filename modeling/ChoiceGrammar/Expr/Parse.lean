import ChoiceGrammar.Markup.Read

/-!
# Parsing expressions

An expression is parsed by reading it as markup. Its alternations may nest up to a limit.
-/

namespace ChoiceGrammar.Expr

/-- How deeply alternations may nest where nothing else is asked for. -/
def defaultMaxDepth : UInt64 := 256

/-- Parses an expression whose alternations nest at most `limit` levels deep. -/
def parseChars (limit : Nat) (text : List Char) : Except Markup.Fault Expr :=
  Markup.read limit text

def parseWithin (limit : Nat) (text : String) : Except Markup.Fault Expr :=
  parseChars limit text.toList

/-- Parses an expression under the default nesting limit. -/
def parse (text : String) : Except Markup.Fault Expr := parseWithin defaultMaxDepth.toNat text

end ChoiceGrammar.Expr
