import ChoiceGrammar.Proofs.Expansion.Walk
import Mathlib.Probability.Distributions.Uniform

/-!
# Every route is equally likely

When every alternation visited draws a uniform number below its total weight, and draws do not
depend on one another, the walk takes each route with probability one over the number of routes.
The one condition is that this number fits into 64 bits, so that no count was held back.
-/

namespace ChoiceGrammar.Expr

open scoped ENNReal

noncomputable section

/-- A uniform number below the total. -/
def uniformDraw (total : Weight) : PMF Weight :=
  if h : (Finset.range total.toNat).Nonempty then
    (PMF.uniformOfFinset (Finset.range total.toNat) h).map (BitVec.ofNat 128)
  else PMF.pure 0

theorem map_apply_injective {α β : Type} (p : PMF α) {f : α → β} (hf : Function.Injective f)
    (a : α) : (p.map f) (f a) = p a := by
  rw [PMF.map_apply, tsum_eq_single a]
  · simp
  · intro b hb
    rw [if_neg (fun h => hb (hf h).symm)]

theorem card_selecting {branches : List Expr} {branch : Expr} {i : Nat}
    (hlen : branches.length < 2 ^ 64) (hi : branches[i]? = some branch) :
    ((Finset.range (weightSum branches)).filter fun n =>
      selectIndex branches (.ofNat 128 n) = i).card = branch.count.toNat := by
  obtain ⟨hlt, -⟩ := List.getElem?_eq_some_iff.mp hi
  obtain ⟨hend, htotal⟩ := weightSum_take_succ hi
  have hfit := weightSum_lt hlen
  have hrange : ((Finset.range (weightSum branches)).filter fun n =>
      selectIndex branches (.ofNat 128 n) = i) =
      Finset.Ico (weightSum (branches.take i)) (weightSum (branches.take (i + 1))) := by
    ext n
    rw [Finset.mem_filter, Finset.mem_range, Finset.mem_Ico]
    constructor
    · rintro ⟨hn, hsel⟩
      have hnat : (BitVec.ofNat 128 n).toNat = n := Nat.mod_eq_of_lt (hn.trans hfit)
      have hiff := selectIndex_eq_iff hlen hlt (hnat.symm ▸ hn)
      rwa [hiff, hnat] at hsel
    · rintro ⟨hlo, hhi⟩
      have hn : n < weightSum branches := hhi.trans_le htotal
      have hnat : (BitVec.ofNat 128 n).toNat = n := Nat.mod_eq_of_lt (hn.trans hfit)
      refine ⟨hn, (selectIndex_eq_iff hlen hlt (hnat.symm ▸ hn)).mpr ?_⟩
      rw [hnat]
      exact ⟨hlo, hhi⟩
  rw [hrange, Nat.card_Ico, hend]
  omega

/-- The chance of a route: that its first branch is selected, times its chance in there. -/
theorem bind_uniformDraw_apply {branches : List Expr} {branch : Expr} {i : Nat}
    (hlen : branches.length < 2 ^ 64) (hi : branches[i]? = some branch)
    (hpos : 0 < weightSum branches) (next : Nat → PMF Route) (inner : Route) :
    ((uniformDraw (totalWeight branches)).bind fun draw =>
        (next (selectIndex branches draw)).map (Route.choose (selectIndex branches draw)))
      (Route.choose i inner) =
      (branch.count.toNat : ℝ≥0∞) / weightSum branches * next i inner := by
  have htotal := totalWeight_toNat hlen
  have hne : (Finset.range (totalWeight branches).toNat).Nonempty := by
    rw [htotal]
    exact Finset.nonempty_range_iff.mpr hpos.ne'
  -- the index chosen is part of the route, so that no other branch can lead to it
  have hchosen (n : Nat) :
      ((next (selectIndex branches (.ofNat 128 n))).map
          (Route.choose (selectIndex branches (.ofNat 128 n)))) (Route.choose i inner) =
        if selectIndex branches (.ofNat 128 n) = i then next i inner else 0 := by
    split
    · next h =>
        rw [h]
        exact map_apply_injective _ (fun _ _ he => (Route.choose.inj he).2) inner
    · next h =>
        rw [PMF.map_apply, ENNReal.tsum_eq_zero]
        intro route
        rw [if_neg (fun he => h (Route.choose.inj he).1.symm)]
  rw [uniformDraw, dif_pos hne, PMF.bind_map, PMF.bind_apply]
  simp only [Function.comp_apply, hchosen, PMF.uniformOfFinset_apply, htotal,
    Finset.card_range]
  rw [tsum_eq_sum (s := Finset.range (weightSum branches))]
  · calc
      _ = ∑ n ∈ Finset.range (weightSum branches), (weightSum branches : ℝ≥0∞)⁻¹ *
            if selectIndex branches (.ofNat 128 n) = i then next i inner else 0 := by
          apply Finset.sum_congr rfl
          intro n hn
          rw [if_pos hn]
      _ = (weightSum branches : ℝ≥0∞)⁻¹ * (branch.count.toNat * next i inner) := by
          rw [← Finset.mul_sum, ← Finset.sum_filter, Finset.sum_const,
            card_selecting hlen hi, nsmul_eq_mul]
      _ = _ := by
          rw [div_eq_mul_inv]
          ring
  · intro n hn
    rw [if_neg hn, zero_mul]

theorem bind_map_cons_apply (p : PMF Route) (q : PMF (List Route)) (route : Route)
    (routes : List Route) :
    (p.bind fun r => q.map (r :: ·)) (route :: routes) = p route * q routes := by
  rw [PMF.bind_apply, tsum_eq_single route]
  · rw [map_apply_injective q (fun _ _ h => (List.cons.inj h).2)]
  · intro r hr
    have hzero : (q.map (r :: ·)) (route :: routes) = 0 := by
      rw [PMF.map_apply, ENNReal.tsum_eq_zero]
      intro rs
      rw [if_neg (fun h => hr (List.cons.inj h).1.symm)]
    rw [hzero, mul_zero]

mutual
theorem walk_apply (e : Expr) (h : e.ways < 2 ^ 64) {route : Route} (hr : route ∈ e.routes) :
    e.walk uniformDraw route = (e.ways : ℝ≥0∞)⁻¹ := by
  cases e with
  | term _ =>
      obtain rfl := List.mem_singleton.mp hr
      change PMF.pure Route.done Route.done = _
      simp [ways]
  | empty =>
      obtain rfl := List.mem_singleton.mp hr
      change PMF.pure Route.done Route.done = _
      simp [ways]
  | seq items =>
      obtain ⟨routes, hrs, rfl⟩ := List.mem_map.mp hr
      rw [walk]
      change ((walkAll uniformDraw items).map Route.each) (.each routes) = _
      rw [map_apply_injective _ (fun _ _ he => Route.each.inj he), ways]
      exact walkAll_apply items h hrs
  | alt first rest =>
      rw [routes_alt] at hr
      obtain ⟨i, branch, inner, hi, hinner, rfl⟩ := mem_routesFrom.mp hr
      have hsum : waysSum (first :: rest) < 2 ^ 64 := h
      have hbranch : branch.ways < 2 ^ 64 := (ways_le_waysSum hi).trans_lt hsum
      have hlen : (first :: rest).length < 2 ^ 64 :=
        (length_le_waysSum (first :: rest)).trans_lt hsum
      have hweight := weightSum_eq_waysSum hsum
      have hpos : 0 < weightSum (first :: rest) := hweight ▸ ways_pos (alt first rest)
      have hnext : walkNth uniformDraw (first :: rest) i inner = (branch.ways : ℝ≥0∞)⁻¹ := by
        cases i with
        | zero =>
            obtain rfl : first = branch := by simpa using hi
            exact walk_apply first hbranch hinner
        | succ i =>
            rw [waysSum] at hsum
            exact walkNth_apply rest (by omega) (by simpa using hi) hinner
      rw [walk_alt, Nat.zero_add]
      change ((uniformDraw (totalWeight (first :: rest))).bind fun drawn =>
        (walkNth uniformDraw (first :: rest) (selectIndex (first :: rest) drawn)).map
          (Route.choose (selectIndex (first :: rest) drawn))) (Route.choose i inner) = _
      rw [bind_uniformDraw_apply hlen hi hpos, hnext, hweight, count_eq_ways hbranch,
        div_eq_mul_inv, mul_right_comm,
        ENNReal.mul_inv_cancel (by exact_mod_cast (ways_pos branch).ne')
          (ENNReal.natCast_ne_top _), one_mul]
      rfl

theorem walkAll_apply (items : List Expr) (h : waysProduct items < 2 ^ 64)
    {routes : List Route} (hr : routes ∈ routesAll items) :
    walkAll uniformDraw items routes = (waysProduct items : ℝ≥0∞)⁻¹ := by
  cases items with
  | nil =>
      obtain rfl := List.mem_singleton.mp hr
      change PMF.pure [] [] = _
      simp [waysProduct]
  | cons item items =>
      obtain ⟨hi, his⟩ := ways_le_waysProduct item items
      rw [routesAll, List.mem_flatMap] at hr
      obtain ⟨route, hroute, hr⟩ := hr
      obtain ⟨routes, hroutes, rfl⟩ := List.mem_map.mp hr
      rw [walkAll]
      change ((item.walk uniformDraw).bind fun r => (walkAll uniformDraw items).map (r :: ·))
        (route :: routes) = _
      rw [bind_map_cons_apply, walk_apply item (hi.trans_lt h) hroute,
        walkAll_apply items (his.trans_lt h) hroutes, waysProduct, Nat.cast_mul,
        ENNReal.mul_inv (.inr (ENNReal.natCast_ne_top _)) (.inl (ENNReal.natCast_ne_top _))]

theorem walkNth_apply (branches : List Expr) (h : waysSum branches < 2 ^ 64) {i : Nat}
    {branch : Expr} (hi : branches[i]? = some branch) {route : Route}
    (hr : route ∈ branch.routes) :
    walkNth uniformDraw branches i route = (branch.ways : ℝ≥0∞)⁻¹ := by
  cases branches with
  | nil => simp at hi
  | cons first rest =>
      simp only [waysSum] at h
      cases i with
      | zero =>
          obtain rfl : first = branch := by simpa using hi
          exact walk_apply first (by omega) hr
      | succ i => exact walkNth_apply rest (by omega) (by simpa using hi) hr
end

/-- An expansion writes the text of the route that its walk takes. Where the routes are no more than
64 bits can count, they are as many as the count, and with uniform draws the walk takes each with
the same probability. -/
theorem routes_equally_likely (e : Expr) (fits : e.ways < 2 ^ 64) :
    (∀ source out, e.expandOnto source out =
      ((e.walk (sourceDraw source)).run out.position).map fun (route, position) =>
        ⟨out.text ++ e.textOf route, position⟩) ∧
      e.routes.Nodup ∧ e.routes.length = e.ways ∧ e.count.toNat = e.ways ∧
      ∀ route ∈ e.routes, e.walk uniformDraw route = 1 / (e.count.toNat : ℝ≥0∞) := by
  have hcount := count_eq_ways fits
  refine ⟨fun source out => expandOnto_eq_walk source e out, nodup_routes e, length_routes e,
    hcount, ?_⟩
  intro route hr
  rw [hcount, one_div]
  exact walk_apply e fits hr

/-- The nested colours weigh three times as much as the term beside them, and so each of the four
routes has one chance in four. -/
theorem routes_equally_likely_nested :
    let colours := alt (.term "red") [.term "green", .term "blue"]
    let e := alt (.term "x") [.seq [colours, .term "!"]]
    e.ways < 2 ^ 64 ∧ Route.choose 1 (.each [.choose 2 .done, .done]) ∈ e.routes ∧
      e.walk uniformDraw (.choose 1 (.each [.choose 2 .done, .done])) = 1 / 4 := by
  intro colours e
  have fits : e.ways < 2 ^ 64 := by decide
  have hmem : Route.choose 1 (.each [.choose 2 .done, .done]) ∈ e.routes := by
    simp [e, colours, routes, routesFrom, routesAll]
  obtain ⟨-, -, -, hcount, hlaw⟩ := routes_equally_likely e fits
  have hfour : e.count.toNat = 4 := hcount
  refine ⟨fits, hmem, ?_⟩
  rw [hlaw _ hmem, hfour]
  rfl

end

end ChoiceGrammar.Expr
