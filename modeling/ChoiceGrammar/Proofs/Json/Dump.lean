import ChoiceGrammar.Expr.Dump
import ChoiceGrammar.Proofs.Json.Rereading

/-!
# Trees from their dumps

A dump says everything about a tree: two trees with the same dump are the same tree, and the tree is
found again by reading the dump as JSON. The canonical text has no such inverse.
-/

namespace ChoiceGrammar.Expr

open Json

mutual
/-- The tree that a JSON value describes. -/
def ofJson? : Value → Option Expr
  | .null => some empty
  | .string text => some (term text)
  | .object [(typeKey, .string name), (itemsKey, .array items)] =>
      if typeKey = "type" ∧ itemsKey = "items" then
        if name = "sequence" then (ofJsonList? items).map seq
        else if name = "choice" then (ofJsonList? items).bind alt?
        else none
      else none
  | _ => none

def ofJsonList? : List Value → Option (List Expr)
  | [] => some []
  | value :: values =>
      (ofJson? value).bind fun e => (ofJsonList? values).map fun es => e :: es
end

theorem ofJsonList?_map {es : List Expr} (h : ∀ e ∈ es, ofJson? e.toJson = some e) :
    ofJsonList? (es.map toJson) = some es := by
  induction es with
  | nil => rfl
  | cons e es ih =>
      obtain ⟨he, hes⟩ := List.forall_mem_cons.mp h
      simp [ofJsonList?, he, ih hes]

theorem ofJson?_toJson (e : Expr) : ofJson? e.toJson = some e := by
  induction e using induct with
  | term text => rfl
  | empty => rfl
  | seq items ih =>
      have hitems := ofJsonList?_map ih
      simp [toJson, typed, toJsonList_eq, ofJson?, hitems]
  | alt first rest ih =>
      have hbranches := ofJsonList?_map ih
      rw [List.map_cons] at hbranches
      simp [toJson, typed, toJsonList_eq, ofJson?, hbranches]

/-- The dump of a tree is a JSON value, from which the tree is read back. So trees with the same
dump are the same. -/
theorem dump_faithful : (∀ a b : Expr, a.dump = b.dump → a = b) ∧
    ∀ e : Expr, Valid .value e.dump.toList ∧ (Value.ofCompact? e.dump).bind ofJson? = some e := by
  have hread : ∀ e : Expr, (Value.ofCompact? e.dump).bind ofJson? = some e := by
    intro e
    rw [dump, Value.ofCompact?_compact, Option.bind_some, ofJson?_toJson]
  constructor
  · intro a b h
    have ha := hread a
    rw [h, hread b] at ha
    exact (Option.some.inj ha).symm
  · intro e
    refine ⟨?_, hread e⟩
    rw [dump, Value.compact, String.toList_ofList]
    exact Value.valid_chars e.toJson

/-- The text `null` and nothing are told apart by the quotes. -/
example : (term "null").dump = "\"null\"" ∧ empty.dump = "null" := by decide

end ChoiceGrammar.Expr
