import ChoiceGrammar.Proofs.Draw.Zone
import ChoiceGrammar.Proofs.Expansion.Walk

/-!
# Steering a walk

Every route can be had: each of its choices is forced by a pair of words, and the pairs of all its
choices, one behind the other, are read to the end and no further.
-/

namespace ChoiceGrammar

namespace WordSource

/-- The source has these words from a position on. -/
def Carries (source : WordSource) (position : Nat) (words : List UInt64) : Prop :=
  ∀ i word, words[i]? = some word → source.word (position + i) = word

variable {source : WordSource} {position : Nat} {xs ys : List UInt64}

theorem Carries.left (h : source.Carries position (xs ++ ys)) : source.Carries position xs := by
  intro i word hi
  obtain ⟨hlt, -⟩ := List.getElem?_eq_some_iff.mp hi
  exact h i word (by rwa [List.getElem?_append_left hlt])

theorem Carries.right (h : source.Carries position (xs ++ ys)) :
    source.Carries (position + xs.length) ys := by
  intro i word hi
  rw [Nat.add_assoc]
  apply h
  rwa [List.getElem?_append_right (Nat.le_add_right _ _), Nat.add_sub_cancel_left]

theorem carries_scripted (words : List UInt64) : (scripted words).Carries 0 words := by
  intro i word hi
  simp [scripted, List.getD_eq_getElem?_getD, hi]

theorem pair_scripted_of_le {words : List UInt64} (h : words.length ≤ position) :
    (scripted words).pair position = 0 := by
  have hnow : words[position]? = none := List.getElem?_eq_none h
  have hnext : words[position + 1]? = none := List.getElem?_eq_none (by omega)
  simp [pair, scripted, List.getD_eq_getElem?_getD, hnow, hnext]

end WordSource

namespace Draw

/-- The two words of a value, the low half first. -/
def wordsOf (value : BitVec 128) : List UInt64 :=
  [.ofBitVec (value.extractLsb' 0 64), .ofBitVec (value.extractLsb' 64 64)]

theorem pair_of_carries {source : WordSource} {position : Nat} {value : BitVec 128}
    (h : source.Carries position (wordsOf value)) : source.pair position = value := by
  have hlow : source.word position = .ofBitVec (value.extractLsb' 0 64) := h 0 _ rfl
  have hhigh : source.word (position + 1) = .ofBitVec (value.extractLsb' 64 64) := h 1 _ rfl
  rw [WordSource.pair, hlow, hhigh]
  exact (BitVec.extractLsb'_append_extractLsb'_eq_extractLsb' rfl).trans BitVec.extractLsb'_eq_self

theorem uniform_of_accepts {source : WordSource} {total : BitVec 128} {position : Nat}
    (hsource : 0 < source.attempts) (h : accepts total (source.pair position) = true) :
    uniform source total position = some (scaled total (source.pair position), position + 2) := by
  cases hattempts : source.attempts with
  | zero => omega
  | succ attempts => rw [uniform, hattempts, uniformWithin, if_pos h]

theorem uniformWithin_isSome {source : WordSource} {total : BitVec 128} {attempts position k : Nat}
    (hk : k < attempts) (h : accepts total (source.pair (position + 2 * k)) = true) :
    (uniformWithin source total attempts position).isSome := by
  induction attempts generalizing position k with
  | zero => omega
  | succ attempts ih =>
      rw [uniformWithin]
      split
      · rfl
      · next hreject =>
          cases k with
          | zero => exact absurd h hreject
          | succ k =>
              have hshift : position + 2 * (k + 1) = position + 2 + 2 * k := by omega
              exact ih (Nat.lt_of_succ_lt_succ hk) (hshift ▸ h)

theorem uniform_scripted_isSome (words : List UInt64) (total : BitVec 128) (position : Nat) :
    (uniform (.scripted words) total position).isSome := by
  have hpair : (WordSource.scripted words).pair (position + 2 * words.length) = 0 :=
    WordSource.pair_scripted_of_le (by omega)
  apply uniformWithin_isSome (Nat.lt_succ_self words.length)
  rw [hpair]
  exact accepts_zero total

end Draw

/-- With these words ahead, the computation reads just them and gives this result. -/
def Forces {α : Type} (words : List UInt64) (compute : WordSource → StateT Nat Option α)
    (result : α) : Prop :=
  ∀ source position, 0 < source.attempts → source.Carries position words →
    (compute source).run position = some (result, position + words.length)

namespace Forces

variable {α β : Type} {words more : List UInt64}

theorem pure (result : α) : Forces [] (fun _ => Pure.pure result) result :=
  fun _ _ _ _ => rfl

theorem bind {f : WordSource → StateT Nat Option α} {g : α → WordSource → StateT Nat Option β}
    {a : α} {b : β} (h : Forces words f a) (h' : Forces more (g a) b) :
    Forces (words ++ more) (fun source => f source >>= fun x => g x source) b := by
  intro source position hsource hcarries
  rw [StateT.run_bind, h source position hsource hcarries.left]
  have hrest := h' source (position + words.length) hsource hcarries.right
  simpa [Nat.add_assoc] using hrest

theorem map {f : WordSource → StateT Nat Option α} {a : α} (h : Forces words f a) (k : α → β) :
    Forces words (fun source => f source >>= fun x => Pure.pure (k x)) (k a) := by
  have hmap := h.bind (g := fun x _ => Pure.pure (k x)) (pure (k a))
  rwa [List.append_nil] at hmap

theorem draw {total drawn : Weight} (h : drawn.toNat < total.toNat) :
    Forces (Draw.wordsOf (Draw.leastValue total drawn)) (fun source => Expr.sourceDraw source total)
      drawn := by
  intro source position hsource hcarries
  have hpair := Draw.pair_of_carries hcarries
  have haccepts : Draw.accepts total (source.pair position) = true := by
    rw [hpair]
    exact Draw.accepts_leastValue h
  rw [Expr.run_sourceDraw, Draw.uniform_of_accepts hsource haccepts, hpair,
    Draw.scaled_leastValue h]
  rfl

end Forces

namespace Expr

theorem forces_alt {first branch : Expr} {rest : List Expr} {drawn : Weight} {words : List UInt64}
    {inner : Route} (hdrawn : drawn.toNat < (totalWeight (first :: rest)).toNat)
    (hbranch : (first :: rest)[selectIndex (first :: rest) drawn]? = some branch)
    (hinner : Forces words (fun source => branch.walk (sourceDraw source)) inner) :
    Forces (Draw.wordsOf (Draw.leastValue (totalWeight (first :: rest)) drawn) ++ words)
      (fun source => (alt first rest).walk (sourceDraw source))
      (.choose (selectIndex (first :: rest) drawn) inner) := by
  simp only [walk_alt]
  refine (Forces.draw hdrawn).bind (g := fun x source => do
    return Route.choose (selectIndex (first :: rest) x)
      (← walkNth (sourceDraw source) (first :: rest) (selectIndex (first :: rest) x))) ?_
  simp only [walkNth_eq _ hbranch]
  exact hinner.map _

theorem exists_forcing_all {items : List Expr}
    (h : ∀ item ∈ items, ∀ route ∈ item.routes,
      ∃ words, Forces words (fun source => item.walk (sourceDraw source)) route)
    {routes : List Route} (hr : routes ∈ routesAll items) :
    ∃ words, Forces words (fun source => walkAll (sourceDraw source) items) routes := by
  induction items generalizing routes with
  | nil =>
      obtain rfl := List.mem_singleton.mp hr
      exact ⟨[], .pure _⟩
  | cons item items ih =>
      rw [routesAll, List.mem_flatMap] at hr
      obtain ⟨route, hroute, hr⟩ := hr
      obtain ⟨others, hothers, rfl⟩ := List.mem_map.mp hr
      obtain ⟨words, hwords⟩ := h item (by simp) route hroute
      obtain ⟨more, hmore⟩ := ih (fun e he => h e (by simp [he])) hothers
      exact ⟨words ++ more, hwords.bind (hmore.map (route :: ·))⟩

/-- Each route is forced by some words. -/
theorem exists_forcing {e : Expr} (h : e.Narrow) :
    ∀ route ∈ e.routes, ∃ words, Forces words (fun source => e.walk (sourceDraw source)) route := by
  induction e using induct with
  | term _ =>
      intro route hr
      obtain rfl := List.mem_singleton.mp hr
      exact ⟨[], .pure _⟩
  | empty =>
      intro route hr
      obtain rfl := List.mem_singleton.mp hr
      exact ⟨[], .pure _⟩
  | seq items ih =>
      intro route hr
      have hitems : AllNarrow items := h
      obtain ⟨routes, hrs, rfl⟩ := List.mem_map.mp hr
      obtain ⟨words, hwords⟩ :=
        exists_forcing_all (fun item hi => ih item hi (allNarrow_iff.mp hitems item hi)) hrs
      exact ⟨words, hwords.map Route.each⟩
  | alt first rest ih =>
      intro route hr
      have hlen : (first :: rest).length < 2 ^ 64 := h.1
      have hbranches : AllNarrow (first :: rest) := h.2
      rw [routes_alt] at hr
      obtain ⟨i, branch, inner, hi, hinner, rfl⟩ := mem_routesFrom.mp hr
      have hmem : branch ∈ first :: rest := List.mem_of_getElem? hi
      have hnarrow : branch.Narrow := allNarrow_iff.mp hbranches branch hmem
      -- a stuck count is still positive, and so the branch has a draw of its own
      obtain ⟨drawn, hdrawn, rfl⟩ := exists_draw_selecting hlen hi (count_pos hnarrow)
      obtain ⟨words, hwords⟩ := ih branch hmem hnarrow inner hinner
      rw [Nat.zero_add]
      exact ⟨_, forces_alt hdrawn hi hwords⟩

end Expr

end ChoiceGrammar
