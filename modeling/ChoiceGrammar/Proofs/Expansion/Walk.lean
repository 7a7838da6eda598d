import ChoiceGrammar.Expr.Expand
import ChoiceGrammar.Proofs.Expansion.Routes

/-!
# Walks

`walk` makes the choices of an expansion with draws from any monad, and says which route it took.
Under the draws of a word source it is what `expandOnto` follows; under random draws it has a law.
Facts about the walks that end are proved by one principle, `walk_induct`.
-/

namespace ChoiceGrammar

namespace Expr

section Walk

variable {m : Type → Type} [Monad m] (draw : Weight → m Weight)

mutual
/-- Takes the branch that owns the draw at every alternation visited. -/
def walk : Expr → m Route
  | term _ => pure .done
  | empty => pure .done
  | seq items => do return .each (← walkAll items)
  | alt first rest => do
      match selectIndex (first :: rest) (← draw (totalWeight (first :: rest))) with
      | 0 => return .choose 0 (← first.walk)
      | i + 1 => return .choose (i + 1) (← walkNth rest i)

def walkAll : List Expr → m (List Route)
  | [] => pure []
  | item :: items => do
      let route ← item.walk
      return route :: (← walkAll items)

def walkNth : List Expr → Nat → m Route
  | [], _ => pure .done
  | branch :: _, 0 => branch.walk
  | _ :: branches, i + 1 => walkNth branches i
end

theorem walk_alt (first : Expr) (rest : List Expr) :
    (alt first rest).walk draw = do
      let drawn ← draw (totalWeight (first :: rest))
      let index := selectIndex (first :: rest) drawn
      return .choose index (← walkNth draw (first :: rest) index) := by
  rw [walk]
  congr 1
  funext drawn
  cases selectIndex (first :: rest) drawn <;> rfl

theorem walkNth_eq {branches : List Expr} {branch : Expr} {i : Nat}
    (h : branches[i]? = some branch) : walkNth draw branches i = branch.walk draw := by
  induction branches generalizing i with
  | nil => simp at h
  | cons first rest ih =>
      cases i with
      | zero =>
          obtain rfl : first = branch := by simpa using h
          rfl
      | succ i => exact ih (by simpa using h)

end Walk

/-- The draws of a word source, from the position reached. -/
def sourceDraw (source : WordSource) (total : Weight) : StateT Nat Option Weight :=
  fun position => Draw.uniform source total position

@[simp] theorem run_sourceDraw (source : WordSource) (total : Weight) (position : Nat) :
    (sourceDraw source total).run position = Draw.uniform source total position := rfl

mutual
theorem expandOnto_eq_walk (source : WordSource) (e : Expr) (out : Output) :
    e.expandOnto source out =
      ((e.walk (sourceDraw source)).run out.position).map fun (route, position) =>
        ⟨out.text ++ e.textOf route, position⟩ := by
  cases e with
  | term text => rfl
  | empty => simp [expandOnto, walk, textOf]
  | seq items =>
      rw [expandOnto, expandAll_eq_walkAll source items out]
      simp [walk, textOf, Option.map_map, Function.comp_def]
  | alt first rest =>
      rw [expandOnto, walk, StateT.run_bind, run_sourceDraw]
      cases Draw.uniform source (totalWeight (first :: rest)) out.position with
      | none => rfl
      | some drawn =>
          obtain ⟨draw, position⟩ := drawn
          cases hi : selectIndex (first :: rest) draw with
          | zero =>
              have hfirst := expandOnto_eq_walk source first ⟨out.text, position⟩
              simp [hi, hfirst, textOf, Option.map_map, Function.comp_def]
          | succ i =>
              have hrest := expandNth_eq_walkNth source rest i ⟨out.text, position⟩
              simp [hi, hrest, textOf, Option.map_map, Function.comp_def]

theorem expandAll_eq_walkAll (source : WordSource) (items : List Expr) (out : Output) :
    expandAll source items out =
      ((walkAll (sourceDraw source) items).run out.position).map fun (routes, position) =>
        ⟨out.text ++ textOfAll items routes, position⟩ := by
  cases items with
  | nil => simp [expandAll, walkAll, textOfAll]
  | cons item items =>
      simp only [expandAll, expandOnto_eq_walk source item out, walkAll]
      cases hw : (item.walk (sourceDraw source)).run out.position with
      | none => simp [hw]
      | some walked =>
          obtain ⟨route, position⟩ := walked
          simp only [Option.map_some, expandAll_eq_walkAll source items]
          simp [hw, Option.map_map, Function.comp_def, textOfAll, String.append_assoc]

theorem expandNth_eq_walkNth (source : WordSource) (branches : List Expr) (i : Nat)
    (out : Output) :
    expandNth source branches i out =
      ((walkNth (sourceDraw source) branches i).run out.position).map fun (route, position) =>
        ⟨out.text ++ textOfNth branches i route, position⟩ := by
  cases branches with
  | nil => simp [expandNth, walkNth, textOfNth]
  | cons branch branches =>
      cases i with
      | zero => exact expandOnto_eq_walk source branch out
      | succ i => exact expandNth_eq_walkNth source branches i out
end

theorem expandOnto_eq_expandFrom (source : WordSource) (e : Expr) (out : Output) :
    e.expandOnto source out = (e.expandFrom source out.position).map fun next =>
      ⟨out.text ++ next.text, next.position⟩ := by
  rw [expandFrom, expandOnto_eq_walk, expandOnto_eq_walk, Option.map_map]
  congr 1

section Ends

variable {source : WordSource} {P : Expr → Nat → Route → Nat → Prop}
  {Q : List Expr → Nat → List Route → Nat → Prop}

theorem walkAll_induct {items : List Expr}
    (h : ∀ item ∈ items, ∀ {position after : Nat} {route : Route},
      (item.walk (sourceDraw source)).run position = some (route, after) →
        P item position route after)
    (nil : ∀ position, Q [] position [] position)
    (cons : ∀ item items position route next routes after, P item position route next →
      Q items next routes after → Q (item :: items) position (route :: routes) after)
    {position after : Nat} {routes : List Route}
    (hwalk : (walkAll (sourceDraw source) items).run position = some (routes, after)) :
    Q items position routes after := by
  induction items generalizing position routes with
  | nil =>
      obtain ⟨rfl, rfl⟩ : [] = routes ∧ position = after := by simpa [walkAll] using hwalk
      exact nil position
  | cons item items ih =>
      simp only [walkAll, StateT.run_bind, Option.bind_eq_bind, Option.bind_eq_some_iff] at hwalk
      obtain ⟨⟨route, next⟩, hitem, ⟨others, last⟩, hitems, hroutes⟩ := hwalk
      obtain ⟨rfl, rfl⟩ : route :: others = routes ∧ last = after := by simpa using hroutes
      apply cons
      · exact h item (by simp) hitem
      · exact ih (fun e he => h e (by simp [he])) hitems

/-- What holds of a walk that ends, from `position` to `after`, when it passes from the walks of the
items and of the branch that owns the draw. -/
theorem walk_induct (term : ∀ text position, P (term text) position .done position)
    (empty : ∀ position, P empty position .done position)
    (seq : ∀ items position routes after, Q items position routes after →
      P (seq items) position (.each routes) after)
    (nil : ∀ position, Q [] position [] position)
    (cons : ∀ item items position route next routes after, P item position route next →
      Q items next routes after → Q (item :: items) position (route :: routes) after)
    (alt : ∀ first rest branch position drawn next inner after,
      Draw.uniform source (totalWeight (first :: rest)) position = some (drawn, next) →
        (first :: rest)[selectIndex (first :: rest) drawn]? = some branch →
          P branch next inner after →
            P (alt first rest) position (.choose (selectIndex (first :: rest) drawn) inner) after)
    {e : Expr} {position after : Nat} {route : Route}
    (h : (e.walk (sourceDraw source)).run position = some (route, after)) :
    P e position route after := by
  induction e using induct generalizing position route after with
  | term text =>
      obtain ⟨rfl, rfl⟩ : Route.done = route ∧ position = after := by simpa [walk] using h
      exact term text position
  | empty =>
      obtain ⟨rfl, rfl⟩ : Route.done = route ∧ position = after := by simpa [walk] using h
      exact empty position
  | seq items ih =>
      simp only [walk, StateT.run_bind, Option.bind_eq_bind, Option.bind_eq_some_iff] at h
      obtain ⟨⟨routes, next⟩, hwalk, hroute⟩ := h
      obtain ⟨rfl, rfl⟩ : Route.each routes = route ∧ next = after := by simpa using hroute
      exact seq items position routes next (walkAll_induct ih nil cons hwalk)
  | alt first rest ih =>
      rw [walk_alt] at h
      simp only [StateT.run_bind, Option.bind_eq_bind, Option.bind_eq_some_iff] at h
      obtain ⟨⟨drawn, next⟩, hdraw, ⟨inner, last⟩, hwalk, hroute⟩ := h
      obtain ⟨rfl, rfl⟩ : Route.choose (selectIndex (first :: rest) drawn) inner = route ∧
          last = after := by simpa using hroute
      have hlt := selectIndex_lt first rest drawn
      have hi := List.getElem?_eq_getElem hlt
      rw [walkNth_eq _ hi] at hwalk
      exact alt first rest _ position drawn next inner last hdraw hi
        (ih _ (List.getElem_mem hlt) hwalk)

end Ends

end Expr

end ChoiceGrammar
