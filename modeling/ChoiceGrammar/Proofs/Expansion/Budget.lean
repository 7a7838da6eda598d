import ChoiceGrammar.Proofs.Expansion.Outputs
import Mathlib.Algebra.Group.Nat.Even

/-!
# The word budget

With zeros behind the words of a script every expansion ends. It reads one pair of words for each
alternation that it visits, and beyond that only pairs that are rejected. A rejected pair begins
among the words, since a pair of zeros is always accepted, and no pair is read twice.
-/

namespace ChoiceGrammar

mutual
/-- The number of alternations visited on a route. -/
def Route.visits : Route → Nat
  | .done => 0
  | .each routes => visitsAll routes
  | .choose _ route => route.visits + 1

def visitsAll : List Route → Nat
  | [] => 0
  | route :: routes => route.visits + visitsAll routes
end

variable {words : List UInt64} {position next after m n : Nat}

/-- The number of pairs from a position on that begin among the words. -/
def pairsLeft (words : List UInt64) (position : Nat) : Nat := (words.length + 1 - position) / 2

/-- So many draws lead from one position to the other: they read a pair each, and rejected pairs,
which are fewer pairs than begin among the words before they are used up. -/
def Spends (words : List UInt64) (position draws after : Nat) : Prop :=
  ∃ rejected, after = position + 2 * (draws + rejected) ∧
    rejected + pairsLeft words after ≤ pairsLeft words position

theorem Spends.refl (words : List UInt64) (position : Nat) : Spends words position 0 position :=
  ⟨0, rfl, Nat.le_of_eq (Nat.zero_add _)⟩

theorem Spends.trans (h : Spends words position m next) (h' : Spends words next n after) :
    Spends words position (m + n) after := by
  obtain ⟨rejected, rfl, hleft⟩ := h
  obtain ⟨more, rfl, hmore⟩ := h'
  exact ⟨rejected + more, by omega, by omega⟩

theorem spends_of_uniformWithin {total draw : BitVec 128} {attempts : Nat}
    (h : Draw.uniformWithin (.scripted words) total attempts position = some (draw, after)) :
    Spends words position 1 after := by
  induction attempts generalizing position with
  | zero => simp [Draw.uniformWithin] at h
  | succ attempts ih =>
      rw [Draw.uniformWithin] at h
      by_cases haccepts : Draw.accepts total ((WordSource.scripted words).pair position) = true
      · rw [if_pos haccepts] at h
        obtain ⟨-, rfl⟩ : _ ∧ position + 2 = after := by simpa using h
        exact ⟨0, rfl, by simp only [pairsLeft]; omega⟩
      · rw [if_neg haccepts] at h
        have hbefore : position < words.length := by
          apply Nat.lt_of_not_le
          intro hbehind
          rw [WordSource.pair_scripted_of_le hbehind] at haccepts
          exact haccepts (Draw.accepts_zero total)
        obtain ⟨rejected, rfl, hleft⟩ := ih h
        refine ⟨rejected + 1, by omega, ?_⟩
        simp only [pairsLeft] at hleft ⊢
        omega

namespace Expr

theorem spends_of_walk {e : Expr} {route : Route}
    (h : (e.walk (sourceDraw (.scripted words))).run position = some (route, after)) :
    Spends words position route.visits after := by
  refine walk_induct (P := fun _ position route after => Spends words position route.visits after)
    (Q := fun _ position routes after => Spends words position (visitsAll routes) after)
    ?_ ?_ ?_ ?_ ?_ ?_ h
  · intro text position
    exact .refl words position
  · intro position
    exact .refl words position
  · intro items position routes after hitems
    exact hitems
  · intro position
    exact .refl words position
  · intro item items position route next routes after hitem hitems
    exact hitem.trans hitems
  · intro first rest branch position drawn next inner after hdraw hbranch hinner
    have hfirst : Spends words position 1 next := spends_of_uniformWithin hdraw
    rw [Route.visits, Nat.add_comm]
    exact hfirst.trans hinner

/-- Under any words with zeros behind them an expansion ends. It reads an even number of words: two
for each alternation that it visits, and at most as many more as there are words, made even. -/
theorem expansion_within_budget (e : Expr) (words : List UInt64) :
    ∃ route position,
      (e.walk (sourceDraw (.scripted words))).run 0 = some (route, position) ∧
        e.expandFrom (.scripted words) 0 = some ⟨e.textOf route, position⟩ ∧
          Even position ∧ 2 * route.visits ≤ position ∧
            position ≤ 2 * route.visits + 2 * ((words.length + 1) / 2) := by
  have hends : ((e.walk (sourceDraw (.scripted words))).run 0).isSome := by
    have hexpand := expandOnto_scripted_isSome words e ⟨"", 0⟩
    rwa [expandOnto_eq_walk, Option.isSome_map] at hexpand
  obtain ⟨⟨route, position⟩, hwalk⟩ := Option.isSome_iff_exists.mp hends
  obtain ⟨rejected, hposition, hleft⟩ := spends_of_walk hwalk
  have hexpand : e.expandFrom (.scripted words) 0 = some ⟨e.textOf route, position⟩ := by
    rw [expandFrom, expandOnto_eq_walk, hwalk]
    simp
  simp only [pairsLeft] at hleft
  refine ⟨route, position, hwalk, hexpand, ⟨route.visits + rejected, ?_⟩, ?_, ?_⟩
  all_goals omega

/-- The budget is used up where the words make one pair after the other that is rejected. -/
example : (alt (.term "x") []).expandFrom
    (.scripted [0, 0x8000000000000000, 7, 0x8000000000000000]) 0 = some ⟨"x", 6⟩ := by decide

end Expr

end ChoiceGrammar
