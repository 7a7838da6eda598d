import ChoiceGrammar.Proofs.Counting.Ways
import Mathlib.Data.List.Nodup

/-!
# Routes

A route is a derivation: it says which branch is taken at every alternation that an expansion
visits, nested ones included. `routes` lists them all, each once, and there are `ways` of them.
-/

namespace ChoiceGrammar

inductive Route where
  | done
  | each (routes : List Route)
  | choose (index : Nat) (route : Route)

namespace Expr

mutual
/-- All routes through an expression. -/
def routes : Expr → List Route
  | term _ => [.done]
  | empty => [.done]
  | seq items => (routesAll items).map .each
  | alt first rest => first.routes.map (.choose 0) ++ routesFrom 1 rest

def routesAll : List Expr → List (List Route)
  | [] => [[]]
  | item :: items => item.routes.flatMap fun route => (routesAll items).map (route :: ·)

/-- The routes through branches that are numbered from `index` on. -/
def routesFrom (index : Nat) : List Expr → List Route
  | [] => []
  | branch :: branches => branch.routes.map (.choose index) ++ routesFrom (index + 1) branches
end

mutual
/-- What is written on a route. -/
def textOf : Expr → Route → String
  | term text, _ => text
  | empty, _ => ""
  | seq items, .each routes => textOfAll items routes
  | alt first _, .choose 0 route => first.textOf route
  | alt _ rest, .choose (i + 1) route => textOfNth rest i route
  | _, _ => ""

def textOfAll : List Expr → List Route → String
  | item :: items, route :: routes => item.textOf route ++ textOfAll items routes
  | _, _ => ""

def textOfNth : List Expr → Nat → Route → String
  | [], _, _ => ""
  | branch :: _, 0, route => branch.textOf route
  | _ :: branches, i + 1, route => textOfNth branches i route
end

mutual
theorem length_routes (e : Expr) : e.routes.length = e.ways := by
  cases e with
  | term _ => rfl
  | empty => rfl
  | seq items =>
      rw [routes, List.length_map, ways]
      exact length_routesAll items
  | alt first rest =>
      rw [routes, List.length_append, List.length_map, ways, length_routes first,
        length_routesFrom 1 rest]

theorem length_routesAll (items : List Expr) : (routesAll items).length = waysProduct items := by
  cases items with
  | nil => rfl
  | cons item items =>
      have hitems := length_routesAll items
      simp [routesAll, waysProduct, length_routes item, hitems]

theorem length_routesFrom (index : Nat) (branches : List Expr) :
    (routesFrom index branches).length = waysSum branches := by
  cases branches with
  | nil => rfl
  | cons branch branches =>
      rw [routesFrom, List.length_append, List.length_map, waysSum, length_routes branch,
        length_routesFrom (index + 1) branches]
end

theorem mem_routesFrom {index : Nat} {branches : List Expr} {route : Route} :
    route ∈ routesFrom index branches ↔
      ∃ i branch inner, branches[i]? = some branch ∧ inner ∈ branch.routes ∧
        route = .choose (index + i) inner := by
  induction branches generalizing index with
  | nil => simp [routesFrom]
  | cons branch branches ih =>
      rw [routesFrom, List.mem_append, List.mem_map, ih]
      constructor
      · rintro (⟨inner, hinner, rfl⟩ | ⟨i, b, inner, hi, hinner, rfl⟩)
        · exact ⟨0, branch, inner, rfl, hinner, rfl⟩
        · exact ⟨i + 1, b, inner, hi, hinner, by rw [Nat.add_assoc, Nat.add_comm 1 i]⟩
      · rintro ⟨i, b, inner, hi, hinner, rfl⟩
        cases i with
        | zero =>
            obtain rfl : branch = b := by simpa using hi
            exact .inl ⟨inner, hinner, rfl⟩
        | succ i =>
            exact .inr ⟨i, b, inner, by simpa using hi, hinner,
              by rw [Nat.add_assoc, Nat.add_comm 1 i]⟩

theorem routes_alt (first : Expr) (rest : List Expr) :
    (alt first rest).routes = routesFrom 0 (first :: rest) := rfl

mutual
theorem nodup_routes (e : Expr) : e.routes.Nodup := by
  cases e with
  | term _ => exact List.nodup_singleton _
  | empty => exact List.nodup_singleton _
  | seq items => exact (nodup_routesAll items).map fun _ _ h => Route.each.inj h
  | alt first rest =>
      rw [routes_alt]
      exact nodup_routesFrom 0 (first :: rest)

theorem nodup_routesAll (items : List Expr) : (routesAll items).Nodup := by
  cases items with
  | nil => exact List.nodup_singleton _
  | cons item items =>
      rw [routesAll, List.nodup_flatMap]
      refine ⟨fun route _ => (nodup_routesAll items).map fun _ _ h => (List.cons.inj h).2, ?_⟩
      refine (nodup_routes item).imp ?_
      intro r s hne
      simp only [Function.onFun, List.disjoint_left, List.mem_map]
      rintro _ ⟨_, -, rfl⟩ ⟨_, -, h⟩
      exact hne (List.cons.inj h).1.symm

theorem nodup_routesFrom (index : Nat) (branches : List Expr) :
    (routesFrom index branches).Nodup := by
  cases branches with
  | nil => exact List.nodup_nil
  | cons branch branches =>
      rw [routesFrom, List.nodup_append]
      refine ⟨(nodup_routes branch).map fun _ _ h => (Route.choose.inj h).2,
        nodup_routesFrom (index + 1) branches, ?_⟩
      intro r hr s hs hrs
      obtain ⟨q, -, rfl⟩ := List.mem_map.mp hr
      obtain ⟨i, _, _, -, -, rfl⟩ := mem_routesFrom.mp hs
      have := (Route.choose.inj hrs).1
      omega
end

end Expr

end ChoiceGrammar
