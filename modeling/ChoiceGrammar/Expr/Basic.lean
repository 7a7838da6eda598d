/-!
# Expression trees

An expression is literal text, nothing, a sequence of expressions, or an alternation between
expressions. An alternation always has a branch: the first one is kept apart from the rest.
-/

namespace ChoiceGrammar

inductive Expr where
  | term (text : String)
  | empty
  | seq (items : List Expr)
  | alt (first : Expr) (rest : List Expr)
  deriving Inhabited

namespace Expr

/-- The alternation between the given branches, if there is one to choose. -/
def alt? : List Expr → Option Expr
  | [] => none
  | first :: rest => some (alt first rest)

@[simp] theorem alt?_nil : alt? [] = none := rfl

@[simp] theorem alt?_cons (first : Expr) (rest : List Expr) :
    alt? (first :: rest) = some (alt first rest) := rfl

/-- A property that passes from all items, or all branches, to the whole holds throughout. -/
@[elab_as_elim]
theorem induct {P : Expr → Prop} (term : ∀ text, P (term text)) (empty : P empty)
    (seq : ∀ items, (∀ item ∈ items, P item) → P (seq items))
    (alt : ∀ first rest, (∀ branch ∈ first :: rest, P branch) → P (alt first rest)) (e : Expr) :
    P e := by
  refine @Expr.rec P (fun es => ∀ e ∈ es, P e) term empty seq ?_ ?_ ?_ e
  · intro first rest hfirst hrest
    exact alt first rest (List.forall_mem_cons.mpr ⟨hfirst, hrest⟩)
  · simp
  · intro e es he hes
    exact List.forall_mem_cons.mpr ⟨he, hes⟩

mutual
def decEq : (a b : Expr) → Decidable (a = b)
  | term s, term t =>
      if h : s = t then isTrue (by rw [h]) else isFalse (by simp [h])
  | empty, empty => isTrue rfl
  | seq as, seq bs =>
      match decEqList as bs with
      | isTrue h => isTrue (by rw [h])
      | isFalse h => isFalse (by simp [h])
  | alt a as, alt b bs =>
      match decEq a b, decEqList as bs with
      | isTrue h, isTrue hs => isTrue (by rw [h, hs])
      | isFalse h, _ => isFalse (by simp [h])
      | _, isFalse hs => isFalse (by simp [hs])
  | term _, empty => isFalse (by simp)
  | term _, seq _ => isFalse (by simp)
  | term _, alt _ _ => isFalse (by simp)
  | empty, term _ => isFalse (by simp)
  | empty, seq _ => isFalse (by simp)
  | empty, alt _ _ => isFalse (by simp)
  | seq _, term _ => isFalse (by simp)
  | seq _, empty => isFalse (by simp)
  | seq _, alt _ _ => isFalse (by simp)
  | alt _ _, term _ => isFalse (by simp)
  | alt _ _, empty => isFalse (by simp)
  | alt _ _, seq _ => isFalse (by simp)

def decEqList : (as bs : List Expr) → Decidable (as = bs)
  | [], [] => isTrue rfl
  | [], _ :: _ => isFalse (by simp)
  | _ :: _, [] => isFalse (by simp)
  | a :: as, b :: bs =>
      match decEq a b, decEqList as bs with
      | isTrue h, isTrue hs => isTrue (by rw [h, hs])
      | isFalse h, _ => isFalse (by simp [h])
      | _, isFalse hs => isFalse (by simp [hs])
end

instance : DecidableEq Expr := decEq

end Expr

end ChoiceGrammar
