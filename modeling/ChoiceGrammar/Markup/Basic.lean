import ChoiceGrammar.Expr.Basic

/-!
# Collapsing

Markup is the notation of expressions. What it stands for is simplified where a sequence or a group
ends: what is free of text vanishes, and a sequence or group with a single survivor is replaced by
it.
-/

namespace ChoiceGrammar.Markup

/-- What remains of a sequence: nothing, its only item, or a sequence. -/
def collapseSequence : List Expr → Option Expr
  | [] => none
  | [item] => some item
  | items => some (.seq items)

/-- What remains of a group: nothing, its only branch, or an alternation. -/
def collapseGroup : List Expr → Option Expr
  | [] => none
  | [branch] => some branch
  | first :: rest => some (.alt first rest)

end ChoiceGrammar.Markup
