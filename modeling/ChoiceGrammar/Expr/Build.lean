import ChoiceGrammar.Error
import ChoiceGrammar.Expr.Parse

/-!
# Building expressions

Parsing and combining expressions, with failures as build errors.
-/

namespace ChoiceGrammar.Expr

/-- The expression of a text whose alternations nest at most `limit` levels deep. -/
def ofText (limit : Nat) (text : String) : Except BuildError Expr :=
  (parseWithin limit text).mapError .markup

def alternation (branches : List Expr) : Except BuildError Expr :=
  match alt? branches with
  | some e => .ok e
  | none => .error .emptyAlternation

end ChoiceGrammar.Expr
