import ChoiceGrammar.Proofs.Expansion.Routes
import Mathlib.Data.Set.Insert

/-!
# Texts

The language of an expression is the set of texts that it stands for. `texts` lists the text of
every route, in the order of the routes: its members are the language, and a text stands in it as
often as it has derivations.
-/

namespace ChoiceGrammar.Expr

mutual
/-- The texts that an expression stands for. -/
def language : Expr → Set String
  | term text => {text}
  | empty => {""}
  | seq items => languageAll items
  | alt first rest => first.language ∪ languageAny rest

/-- A text of each item, one behind the other. -/
def languageAll : List Expr → Set String
  | [] => {""}
  | item :: items => {text | ∃ s ∈ item.language, ∃ t ∈ languageAll items, s ++ t = text}

/-- A text of some branch. -/
def languageAny : List Expr → Set String
  | [] => ∅
  | branch :: branches => branch.language ∪ languageAny branches
end

/-- The text of every route. -/
def texts (e : Expr) : List String := e.routes.map e.textOf

def textsAll (items : List Expr) : List String := (routesAll items).map (textOfAll items)

theorem mem_texts {e : Expr} {text : String} :
    text ∈ e.texts ↔ ∃ route ∈ e.routes, e.textOf route = text := List.mem_map

theorem length_texts (e : Expr) : e.texts.length = e.ways := by
  rw [texts, List.length_map, length_routes]

/-- Every text of the first list with every text of the second behind it. -/
def pasted (firsts seconds : List String) : List String :=
  firsts.flatMap fun s => seconds.map (s ++ ·)

@[simp] theorem mem_pasted {firsts seconds : List String} {text : String} :
    text ∈ pasted firsts seconds ↔ ∃ s ∈ firsts, ∃ t ∈ seconds, s ++ t = text := by
  simp [pasted]

@[simp] theorem blank_pasted (texts : List String) : pasted [""] texts = texts := by
  simp [pasted]

@[simp] theorem pasted_blank (texts : List String) : pasted texts [""] = texts := by
  simp [pasted]

theorem pasted_assoc (xs ys zs : List String) :
    pasted (pasted xs ys) zs = pasted xs (pasted ys zs) := by
  simp [pasted, List.flatMap_assoc, List.flatMap_map, List.map_flatMap, Function.comp_def,
    String.append_assoc]

@[simp] theorem texts_term (text : String) : (term text).texts = [text] := rfl

@[simp] theorem texts_empty : empty.texts = [""] := rfl

theorem texts_seq (items : List Expr) : (seq items).texts = textsAll items := by
  simp [texts, routes, textsAll, Function.comp_def, textOf]

@[simp] theorem textsAll_nil : textsAll [] = [""] := rfl

theorem textsAll_cons (item : Expr) (items : List Expr) :
    textsAll (item :: items) = pasted item.texts (textsAll items) := by
  simp [textsAll, routesAll, pasted, texts, List.map_flatMap, List.flatMap_map,
    Function.comp_def, textOfAll]

@[simp] theorem textsAll_singleton (e : Expr) : textsAll [e] = e.texts := by
  simp [textsAll_cons]

theorem textsAll_append (xs ys : List Expr) :
    textsAll (xs ++ ys) = pasted (textsAll xs) (textsAll ys) := by
  induction xs with
  | nil => simp
  | cons x xs ih => rw [List.cons_append, textsAll_cons, ih, textsAll_cons, pasted_assoc]

theorem map_routesFrom {index : Nat} {branches : List Expr} {read : Route → String}
    (h : ∀ i branch inner, branches[i]? = some branch →
      read (.choose (index + i) inner) = branch.textOf inner) :
    (routesFrom index branches).map read = branches.flatMap texts := by
  induction branches generalizing index with
  | nil => rfl
  | cons branch branches ih =>
      have hbranch : (branch.routes.map (Route.choose index)).map read = branch.texts := by
        rw [List.map_map, texts]
        apply List.map_congr_left
        intro inner _
        exact h 0 branch inner rfl
      have hrest : (routesFrom (index + 1) branches).map read = branches.flatMap texts := by
        apply ih
        intro i b inner hi
        rw [Nat.add_assoc, Nat.add_comm 1 i]
        exact h (i + 1) b inner (by simpa using hi)
      rw [routesFrom, List.map_append, hbranch, hrest, List.flatMap_cons]

theorem textOfNth_eq {branches : List Expr} {branch : Expr} {i : Nat}
    (h : branches[i]? = some branch) (inner : Route) :
    textOfNth branches i inner = branch.textOf inner := by
  induction branches generalizing i with
  | nil => simp at h
  | cons first rest ih =>
      cases i with
      | zero =>
          obtain rfl : first = branch := by simpa using h
          rfl
      | succ i => exact ih (by simpa using h)

theorem textOf_choose {first branch : Expr} {rest : List Expr} {i : Nat}
    (h : (first :: rest)[i]? = some branch) (inner : Route) :
    (alt first rest).textOf (.choose i inner) = branch.textOf inner := by
  rw [← textOfNth_eq h]
  cases i <;> rfl

theorem texts_alt (first : Expr) (rest : List Expr) :
    (alt first rest).texts = (first :: rest).flatMap texts := by
  rw [texts, routes_alt]
  apply map_routesFrom
  intro i branch inner h
  rw [Nat.zero_add]
  exact textOf_choose h inner

mutual
theorem mem_language {text : String} (e : Expr) : text ∈ e.language ↔ text ∈ e.texts := by
  cases e with
  | term _ => simp [language]
  | empty => simp [language]
  | seq items => rw [language, texts_seq, mem_languageAll items]
  | alt first rest =>
      rw [language, texts_alt, List.flatMap_cons, List.mem_append, Set.mem_union,
        mem_language first, mem_languageAny rest]

theorem mem_languageAll {text : String} (items : List Expr) :
    text ∈ languageAll items ↔ text ∈ textsAll items := by
  cases items with
  | nil => simp [languageAll]
  | cons item items =>
      rw [languageAll, textsAll_cons, mem_pasted]
      constructor
      · rintro ⟨s, hs, t, ht, rfl⟩
        exact ⟨s, (mem_language item).mp hs, t, (mem_languageAll items).mp ht, rfl⟩
      · rintro ⟨s, hs, t, ht, rfl⟩
        exact ⟨s, (mem_language item).mpr hs, t, (mem_languageAll items).mpr ht, rfl⟩

theorem mem_languageAny {text : String} (branches : List Expr) :
    text ∈ languageAny branches ↔ text ∈ branches.flatMap texts := by
  cases branches with
  | nil => simp [languageAny]
  | cons branch branches =>
      rw [languageAny, List.flatMap_cons, List.mem_append, Set.mem_union, mem_language branch,
        mem_languageAny branches]
end

theorem language_eq_of_texts_eq {a b : Expr} (h : a.texts = b.texts) : a.language = b.language := by
  ext text
  rw [mem_language, mem_language, h]

theorem mem_language_alt {first : Expr} {rest : List Expr} {text : String} :
    text ∈ (alt first rest).language ↔ ∃ branch ∈ first :: rest, text ∈ branch.language := by
  simp only [mem_language, texts_alt, List.mem_flatMap]

end ChoiceGrammar.Expr
