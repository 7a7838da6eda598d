import ChoiceGrammar.Expr.Basic

/-!
# Canonical text and longest output

`encode` writes an expression in the notation that `Expr.parse` reads: literals as they are, the
items of a sequence side by side, the branches of an alternation between angle brackets with bars
between them. `maxLength` is the size in bytes of the longest text an expression can produce.
-/

namespace ChoiceGrammar.Expr

mutual
def chars : Expr → List Char
  | term text => text.toList
  | empty => []
  | seq items => charsConcat items
  | alt first rest => '<' :: (first.chars ++ charsBarred rest)

def charsConcat : List Expr → List Char
  | [] => []
  | item :: items => item.chars ++ charsConcat items

/-- The remaining branches of an alternation, each after a bar, and the closing bracket. -/
def charsBarred : List Expr → List Char
  | [] => ['>']
  | branch :: branches => '|' :: (branch.chars ++ charsBarred branches)
end

def encode (e : Expr) : String := .ofList e.chars

@[simp] theorem toList_encode (e : Expr) : e.encode.toList = e.chars := by
  simp [encode]

theorem charsConcat_eq (items : List Expr) : charsConcat items = items.flatMap chars := by
  induction items with
  | nil => rfl
  | cons item items ih => simp [charsConcat, ih]

theorem charsBarred_eq (branches : List Expr) :
    charsBarred branches = branches.flatMap (fun branch => '|' :: branch.chars) ++ ['>'] := by
  induction branches with
  | nil => rfl
  | cons branch branches ih => simp [charsBarred, ih]

mutual
/-- Size in bytes of the longest output, in 64-bit arithmetic. -/
def maxLength : Expr → UInt64
  | term text => .ofNat text.utf8ByteSize
  | empty => 0
  | seq items => lengthSum items
  | alt first rest => max first.maxLength (lengthMax rest)

def lengthSum : List Expr → UInt64
  | [] => 0
  | item :: items => item.maxLength + lengthSum items

def lengthMax : List Expr → UInt64
  | [] => 0
  | branch :: branches => max branch.maxLength (lengthMax branches)
end

end ChoiceGrammar.Expr
