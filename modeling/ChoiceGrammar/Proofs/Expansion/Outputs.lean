import ChoiceGrammar.Proofs.Expansion.Steering
import ChoiceGrammar.Proofs.Expansion.Texts
import Mathlib.Data.Set.Card

/-!
# Outputs

The outputs of an expression are the texts that its expansion writes, over all lists of words with
zeros behind them. They are the language of the expression, also where counts are held back. So
where no count is held back there are no more outputs than the count says, and as many exactly when
no text has two derivations.
-/

namespace ChoiceGrammar.Expr

variable {source : WordSource}

theorem mem_routes_of_walk {e : Expr} {position after : Nat} {route : Route}
    (h : (e.walk (sourceDraw source)).run position = some (route, after)) : route ∈ e.routes := by
  refine walk_induct (P := fun e _ route _ => route ∈ e.routes)
    (Q := fun items _ routes _ => routes ∈ routesAll items) ?_ ?_ ?_ ?_ ?_ ?_ h
  · intro text position
    exact List.mem_singleton_self _
  · intro position
    exact List.mem_singleton_self _
  · intro items position routes after hroutes
    exact List.mem_map_of_mem hroutes
  · intro position
    exact List.mem_singleton_self _
  · intro item items position route next routes after hroute hroutes
    rw [routesAll, List.mem_flatMap]
    exact ⟨route, hroute, List.mem_map_of_mem hroutes⟩
  · intro first rest branch position drawn next inner after hdraw hbranch hinner
    rw [routes_alt, mem_routesFrom]
    exact ⟨_, branch, inner, hbranch, hinner, by rw [Nat.zero_add]⟩

/-- Whatever the source, what an expansion writes is a text of the language. -/
theorem exists_mem_language_of_expandOnto {e : Expr} {out after : Output}
    (h : e.expandOnto source out = some after) :
    ∃ text ∈ e.language, after.text = out.text ++ text := by
  rw [expandOnto_eq_walk, Option.map_eq_some_iff] at h
  obtain ⟨⟨route, position⟩, hwalk, rfl⟩ := h
  have htext := mem_texts.mpr ⟨route, mem_routes_of_walk hwalk, rfl⟩
  exact ⟨e.textOf route, (mem_language e).mpr htext, rfl⟩

theorem mem_language_of_expand {e : Expr} {seed : UInt64} {text : String}
    (h : e.expand seed = some text) : text ∈ e.language := by
  obtain ⟨out, hout, rfl⟩ := Option.map_eq_some_iff.mp h
  obtain ⟨text, htext, heq⟩ := exists_mem_language_of_expandOnto hout
  rw [heq]
  simpa using htext

/-- A tree inside another one, at any depth. -/
inductive IsPart : Expr → Expr → Prop where
  | refl (e : Expr) : IsPart e e
  | item {part item : Expr} {items : List Expr} (hi : item ∈ items) (h : IsPart part item) :
      IsPart part (seq items)
  | branch {part branch first : Expr} {rest : List Expr} (hb : branch ∈ first :: rest)
      (h : IsPart part branch) : IsPart part (alt first rest)

theorem exists_item_of_walkAll_eq_none {items : List Expr} {position : Nat}
    (h : (walkAll (sourceDraw source) items).run position = none) :
    ∃ item ∈ items, ∃ position, (item.walk (sourceDraw source)).run position = none := by
  induction items generalizing position with
  | nil => simp [walkAll] at h
  | cons item items ih =>
      cases hitem : (item.walk (sourceDraw source)).run position with
      | none => exact ⟨item, by simp, position, hitem⟩
      | some walked =>
          obtain ⟨route, next⟩ := walked
          have hitems : (walkAll (sourceDraw source) items).run next = none := by
            simpa [walkAll, hitem] using h
          obtain ⟨other, hother, stuck⟩ := ih hitems
          exact ⟨other, by simp [hother], stuck⟩

theorem exists_draw_of_walk_eq_none {e : Expr} {position : Nat}
    (h : (e.walk (sourceDraw source)).run position = none) :
    ∃ first rest position, IsPart (alt first rest) e ∧
      Draw.uniform source (totalWeight (first :: rest)) position = none := by
  induction e using induct generalizing position with
  | term _ => simp [walk] at h
  | empty => simp [walk] at h
  | seq items ih =>
      have hitems : (walkAll (sourceDraw source) items).run position = none := by
        simpa [walk] using h
      obtain ⟨item, hi, next, hitem⟩ := exists_item_of_walkAll_eq_none hitems
      obtain ⟨first, rest, stuck, hpart, hdraw⟩ := ih item hi hitem
      exact ⟨first, rest, stuck, hpart.item hi, hdraw⟩
  | alt first rest ih =>
      cases hdraw : Draw.uniform source (totalWeight (first :: rest)) position with
      | none => exact ⟨first, rest, position, .refl _, hdraw⟩
      | some drawn =>
          obtain ⟨draw, next⟩ := drawn
          have hlt := selectIndex_lt first rest draw
          have hi := List.getElem?_eq_getElem hlt
          have hbranch := List.getElem_mem hlt
          have hwalk : ((first :: rest)[selectIndex (first :: rest) draw].walk
              (sourceDraw source)).run next = none := by
            simpa [walk_alt, hdraw, walkNth_eq _ hi] using h
          obtain ⟨inner, others, stuck, hpart, hgives⟩ := ih _ hbranch hwalk
          exact ⟨inner, others, stuck, hpart.branch hbranch, hgives⟩

theorem expandOnto_scripted_isSome (words : List UInt64) (e : Expr) (out : Output) :
    (e.expandOnto (.scripted words) out).isSome := by
  rw [expandOnto_eq_walk, Option.isSome_map, Option.isSome_iff_ne_none]
  intro hnone
  obtain ⟨first, rest, position, -, hdraw⟩ := exists_draw_of_walk_eq_none hnone
  have hsome := Draw.uniform_scripted_isSome words (totalWeight (first :: rest)) position
  simp [hdraw] at hsome

/-- The texts that an expansion writes, each from some words with zeros behind them. -/
def outputs (e : Expr) : Set String :=
  {text | ∃ words position, e.expandFrom (.scripted words) 0 = some ⟨text, position⟩}

/-- Words for a text, all of which are read. -/
theorem exists_words_of_mem_language {e : Expr} (h : e.Narrow) {text : String}
    (ht : text ∈ e.language) :
    ∃ words, e.expandFrom (.scripted words) 0 = some ⟨text, words.length⟩ := by
  obtain ⟨route, hroute, rfl⟩ := mem_texts.mp ((mem_language e).mp ht)
  obtain ⟨words, hwords⟩ := exists_forcing h route hroute
  have hwalk := hwords (.scripted words) 0 (Nat.succ_pos _) (WordSource.carries_scripted words)
  refine ⟨words, ?_⟩
  rw [expandFrom, expandOnto_eq_walk, hwalk]
  simp

theorem outputs_eq_language {e : Expr} (h : e.Narrow) : e.outputs = e.language := by
  ext text
  constructor
  · rintro ⟨words, position, hexpand⟩
    obtain ⟨s, hs, htext⟩ := exists_mem_language_of_expandOnto hexpand
    obtain rfl : text = s := by simpa using htext
    exact hs
  · intro ht
    obtain ⟨words, hexpand⟩ := exists_words_of_mem_language h ht
    exact ⟨words, words.length, hexpand⟩

/-- What is written under a list of words with zeros behind it is the language, however large the
counts: every such expansion ends, and every text of the language is written under some words.
Under any other source too nothing else is written. -/
theorem expansion_writes_language {e : Expr} (narrow : e.Narrow) :
    (∀ text, (∃ words position,
        e.expandFrom (.scripted words) 0 = some ⟨text, position⟩) ↔ text ∈ e.language) ∧
      (∀ words out, (e.expandOnto (.scripted words) out).isSome) ∧
        ∀ source out after, e.expandOnto source out = some after →
          ∃ text ∈ e.language, after.text = out.text ++ text := by
  refine ⟨?_, ?_, ?_⟩
  · intro text
    exact Set.ext_iff.mp (outputs_eq_language narrow) text
  · intro words out
    exact expandOnto_scripted_isSome words e out
  · intro source out after h
    exact exists_mem_language_of_expandOnto h

/-- Behind two branches with stuck counts, whose weights add up to more than 64 bits hold, the third
branch still has its draw. -/
theorem expansion_writes_language_stuck :
    let e : Expr := .alt (wide "A") [wide "B", .term "C"]
    e.Narrow ∧ (wide "B").count = 18446744073709551615 ∧
      ∃ words position, e.expandFrom (.scripted words) 0 = some ⟨"C", position⟩ := by
  intro e
  have hnarrow : e.Narrow := ⟨by decide, narrow_wide "A", narrow_wide "B", trivial, trivial⟩
  have hmem : "C" ∈ e.language := .inr (.inr (.inl rfl))
  obtain ⟨hwrites, -, -⟩ := expansion_writes_language hnarrow
  exact ⟨hnarrow, count_wide "B", (hwrites "C").mpr hmem⟩

/-- No two derivations give the same text. -/
def Unambiguous (e : Expr) : Prop :=
  ∀ route ∈ e.routes, ∀ other ∈ e.routes, e.textOf route = e.textOf other → route = other

theorem language_eq_toFinset (e : Expr) : e.language = ↑e.texts.toFinset := by
  ext text
  rw [List.coe_toFinset]
  exact mem_language e

theorem ncard_language_le (e : Expr) : e.language.ncard ≤ e.ways := by
  rw [language_eq_toFinset, Set.ncard_coe_finset, ← length_texts]
  exact List.toFinset_card_le e.texts

theorem ncard_language_eq_iff (e : Expr) : e.language.ncard = e.ways ↔ e.Unambiguous := by
  have hnodup : e.Unambiguous ↔ e.texts.Nodup :=
    (List.nodup_map_iff_inj_on (nodup_routes e)).symm
  rw [hnodup, language_eq_toFinset, Set.ncard_coe_finset, List.card_toFinset, ← length_texts]
  constructor
  · intro hlength
    exact List.dedup_eq_self.mp ((List.dedup_sublist e.texts).eq_of_length hlength)
  · intro h
    rw [List.dedup_eq_self.mpr h]

theorem card_le_count {e : Expr} (h : e.Narrow) (hcount : e.count.toNat < 2 ^ 64 - 1)
    {texts : List String} (htexts : ∀ text ∈ texts, text ∈ e.language) :
    texts.toFinset.card ≤ e.count.toNat := by
  have hways : e.count.toNat = e.ways := by
    have := count_toNat e h
    omega
  have hsub : texts.toFinset ⊆ e.texts.toFinset := by
    intro text htext
    rw [List.mem_toFinset] at htext ⊢
    exact (mem_language e).mp (htexts text htext)
  calc
    texts.toFinset.card ≤ e.texts.toFinset.card := Finset.card_le_card hsub
    _ ≤ e.texts.length := List.toFinset_card_le e.texts
    _ = e.count.toNat := by rw [length_texts, hways]

/-- The count is the number of derivations, which is at least one, held below `2 ^ 64`. Where it is
less than the largest value there are at most that many outputs, and just that many exactly when no
two derivations give the same text. -/
theorem count_bounds_outputs {e : Expr} (narrow : e.Narrow) :
    e.routes.Nodup ∧ e.routes.length = e.ways ∧ 1 ≤ e.ways ∧
      e.count.toNat = min e.ways (2 ^ 64 - 1) ∧
        (e.count.toNat < 2 ^ 64 - 1 →
          e.outputs.Finite ∧ e.outputs.ncard ≤ e.count.toNat ∧
            (e.outputs.ncard = e.count.toNat ↔ e.Unambiguous)) := by
  have hcount := count_toNat e narrow
  refine ⟨nodup_routes e, length_routes e, ways_pos e, hcount, ?_⟩
  intro hfits
  have hways : e.count.toNat = e.ways := by omega
  rw [outputs_eq_language narrow, hways]
  refine ⟨?_, ncard_language_le e, ncard_language_eq_iff e⟩
  rw [language_eq_toFinset]
  exact Finset.finite_toSet _

/-- Two of the four derivations give the text `abc`, and so there are fewer than four outputs. -/
theorem count_bounds_outputs_ambiguous :
    let e : Expr := .seq [.alt (.term "a") [.term "ab"], .alt (.term "bc") [.term "c"]]
    e.Narrow ∧ e.count = 4 ∧ e.outputs.Finite ∧ e.outputs.ncard < 4 := by
  intro e
  have hnarrow : e.Narrow := by simp [e, Narrow, AllNarrow]
  obtain ⟨-, -, -, -, houtputs⟩ := count_bounds_outputs hnarrow
  obtain ⟨hfinite, hle, hiff⟩ := houtputs (by decide)
  have hcount : e.count.toNat = 4 := by decide
  have hambiguous : ¬ e.Unambiguous := by
    intro h
    have hroute : Route.each [.choose 0 .done, .choose 0 .done] ∈ e.routes := by
      simp [e, routes, routesAll, routesFrom]
    have hother : Route.each [.choose 1 .done, .choose 1 .done] ∈ e.routes := by
      simp [e, routes, routesAll, routesFrom]
    have hsame := h _ hroute _ hother (by decide)
    cases hsame
  have hne := mt hiff.mp hambiguous
  exact ⟨hnarrow, by decide, hfinite, by omega⟩

end ChoiceGrammar.Expr
