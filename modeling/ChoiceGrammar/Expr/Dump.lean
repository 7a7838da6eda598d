import ChoiceGrammar.Expr.Basic
import ChoiceGrammar.Json.Value

/-!
# Structure as JSON

Unlike the canonical text, the dump of an expression shows its structure: a term is a string,
nothing is `null`, sequences and alternations are objects with their type and their items.
-/

namespace ChoiceGrammar.Expr

def typed (name : String) (items : List Json.Value) : Json.Value :=
  .object [("type", .string name), ("items", .array items)]

mutual
def toJson : Expr → Json.Value
  | term text => .string text
  | empty => .null
  | seq items => typed "sequence" (toJsonList items)
  | alt first rest => typed "choice" (first.toJson :: toJsonList rest)

def toJsonList : List Expr → List Json.Value
  | [] => []
  | e :: es => e.toJson :: toJsonList es
end

theorem toJsonList_eq (es : List Expr) : toJsonList es = es.map toJson := by
  induction es with
  | nil => rfl
  | cons e es ih => simp [toJsonList, ih]

def dump (e : Expr) : String := e.toJson.compact

end ChoiceGrammar.Expr
