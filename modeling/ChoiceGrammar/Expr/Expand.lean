import ChoiceGrammar.Expr.Count
import ChoiceGrammar.Random.Draw
import ChoiceGrammar.Random.Seeded

/-!
# Expansion

Expanding an expression writes one of its outputs. Every alternation draws a number below its total
weight and goes on with the branch that owns the number; it draws before its branch is expanded,
and also when there is one branch only. Nothing else reads from the source.
-/

namespace ChoiceGrammar

/-- The text written so far and the position of the first unread word. -/
structure Output where
  text : String
  position : Nat
  deriving DecidableEq, Repr

namespace Expr

mutual
/-- Writes an expansion after what is already written; `none` when a draw gives up. -/
def expandOnto (source : WordSource) : Expr → Output → Option Output
  | term text, out => some { out with text := out.text ++ text }
  | empty, out => some out
  | seq items, out => expandAll source items out
  | alt first rest, out =>
      match Draw.uniform source (totalWeight (first :: rest)) out.position with
      | none => none
      | some (draw, position) =>
          match selectIndex (first :: rest) draw with
          | 0 => first.expandOnto source { out with position }
          | i + 1 => expandNth source rest i { out with position }

def expandAll (source : WordSource) : List Expr → Output → Option Output
  | [], out => some out
  | item :: items, out =>
      match item.expandOnto source out with
      | none => none
      | some out => expandAll source items out

def expandNth (source : WordSource) : List Expr → Nat → Output → Option Output
  | [], _, out => some out
  | branch :: _, 0, out => branch.expandOnto source out
  | _ :: branches, i + 1, out => expandNth source branches i out
end

/-- An expansion that reads from `position` on. -/
def expandFrom (source : WordSource) (e : Expr) (position : Nat) : Option Output :=
  e.expandOnto source ⟨"", position⟩

/-- The expansion of a seed. -/
def expand (e : Expr) (seed : UInt64) : Option String :=
  (e.expandFrom (.seeded seed) 0).map Output.text

/-- Successive expansions that share one source, each beginning where the one before it stopped. -/
def expandTimes (source : WordSource) (e : Expr) : (times position : Nat) → Option (List Output)
  | 0, _ => some []
  | times + 1, position =>
      match e.expandFrom source position with
      | none => none
      | some out => (expandTimes source e times out.position).map (out :: ·)

end Expr

end ChoiceGrammar
