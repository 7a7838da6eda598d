import ChoiceGrammar.Proofs.Canonical.Rereading

/-!
# Striking out delimiters

The canonical text of what was parsed is the parsed text with some delimiters struck out and nothing
else changed. It parses at the same limit, and the canonical text is then the same again.
-/

namespace ChoiceGrammar.Markup

/-- Some delimiters of the first text are struck out, which gives the second. -/
inductive Strikes : List Char → List Char → Prop where
  | nil : Strikes [] []
  | keep (c : Char) {s t : List Char} (h : Strikes s t) : Strikes (c :: s) (c :: t)
  | strike {c : Char} {s t : List Char} (hc : isDelimiter c = true) (h : Strikes s t) :
      Strikes (c :: s) t

namespace Strikes

variable {s t u v : List Char}

theorem refl (s : List Char) : Strikes s s := by
  induction s with
  | nil => exact nil
  | cons c s ih => exact keep c ih

theorem trans (h : Strikes s t) (h' : Strikes t u) : Strikes s u := by
  induction h generalizing u with
  | nil => exact h'
  | keep c _ ih =>
      cases h' with
      | keep _ h' => exact keep c (ih h')
      | strike hc h' => exact strike hc (ih h')
  | strike hc _ ih => exact strike hc (ih h')

theorem append (h : Strikes s t) (h' : Strikes u v) : Strikes (s ++ u) (t ++ v) := by
  induction h with
  | nil => exact h'
  | keep c _ ih => exact keep c ih
  | strike hc _ ih => exact strike hc ih

theorem filter_eq (h : Strikes s t) :
    t.filter (fun c => !isDelimiter c) = s.filter (fun c => !isDelimiter c) := by
  induction h with
  | nil => rfl
  | keep c _ ih => rw [List.filter_cons, List.filter_cons, ih]
  | strike hc _ ih => rw [ih, List.filter_cons_of_neg (by simp [hc])]

theorem sublist (h : Strikes s t) : t.Sublist s := by
  induction h with
  | nil => exact .slnil
  | keep c _ ih => exact ih.cons_cons c
  | strike _ _ ih => exact ih.cons _

end Strikes

theorem strikes_alternationOf_cons (e : Expr) (es : List Expr) :
    Strikes ('<' :: (e.chars ++ Expr.charsBarred es))
      (Expr.charsConcat (alternationOf (e :: es)).toList) := by
  cases es with
  | nil =>
      have hclose : Strikes ['>'] [] := .strike rfl .nil
      exact .strike rfl ((Strikes.refl e.chars).append hclose)
  | cons f es =>
      have heq : Expr.charsConcat (alternationOf (e :: f :: es)).toList =
          '<' :: (e.chars ++ Expr.charsBarred (f :: es)) := List.append_nil _
      rw [heq]
      exact .refl _

theorem strikes_alternationOf (es : List Expr) :
    Strikes ('<' :: Expr.charsBarred es) (Expr.charsConcat (alternationOf es).toList) := by
  cases es with
  | nil => exact .strike rfl (.strike rfl .nil)
  | cons e es =>
      have hbar : Strikes (Expr.charsBarred (e :: es)) (e.chars ++ Expr.charsBarred es) :=
        .strike rfl (.refl _)
      exact (hbar.keep '<').trans (strikes_alternationOf_cons e es)

theorem charsConcat_sequenceOf (es : List Expr) :
    Expr.charsConcat (sequenceOf es).toList = Expr.charsConcat es := (alike_sequenceOf es).chars

mutual
theorem strikes_item (item : Item) :
    Strikes item.chars (Expr.charsConcat item.collapse.toList) := by
  cases item with
  | run text =>
      rw [Item.collapse, Option.toList_some, Expr.charsConcat_singleton]
      exact .refl _
  | group first rest =>
      have hfirst := strikes_sequence first
      have hrest := strikes_barred rest
      rw [← charsConcat_sequenceOf] at hfirst
      rw [Item.chars, Item.collapse]
      cases hc : sequenceOf (survivingItems first) with
      | none =>
          rw [hc] at hfirst
          exact ((hfirst.append hrest).keep '<').trans (strikes_alternationOf _)
      | some e =>
          rw [hc, Option.toList_some, Expr.charsConcat_singleton] at hfirst
          exact ((hfirst.append hrest).keep '<').trans (strikes_alternationOf_cons e _)

theorem strikes_sequence (items : List Item) :
    Strikes (sequenceChars items) (Expr.charsConcat (survivingItems items)) := by
  cases items with
  | nil => exact .nil
  | cons item items =>
      rw [sequenceChars, survivingItems, Expr.charsConcat_append]
      exact (strikes_item item).append (strikes_sequence items)

theorem strikes_barred (branches : List (List Item)) :
    Strikes (barredChars branches) (Expr.charsBarred (survivingBranches branches)) := by
  cases branches with
  | nil => exact .refl _
  | cons branch branches =>
      have hbranch := strikes_sequence branch
      have hrest := strikes_barred branches
      rw [← charsConcat_sequenceOf] at hbranch
      rw [barredChars, survivingBranches]
      cases hc : sequenceOf (survivingItems branch) with
      | none =>
          rw [hc] at hbranch
          exact .strike rfl (hbranch.append hrest)
      | some e =>
          rw [hc, Option.toList_some, Expr.charsConcat_singleton] at hbranch
          exact (hbranch.append hrest).keep '|'
end

theorem strikes_collapse (items : List Item) :
    Strikes (sequenceChars items) (collapse items).chars := by
  have hchars := (alike_collapse items).chars
  rw [Expr.charsConcat_singleton] at hchars
  rw [hchars]
  exact strikes_sequence items

/-- The canonical text of a parsed tree parses at the same limit and is its own canonical text. It
is the parsed text with delimiters struck out, so that it has the same literal characters in the
same order. -/
theorem canonicalText_stable {limit : Nat} {text : String} {e : Expr}
    (h : Expr.parseWithin limit text = .ok e) :
    (∃ e', Expr.parseWithin limit e.encode = .ok e' ∧ e'.encode = e.encode) ∧
      Strikes text.toList e.encode.toList ∧
        e.encode.toList.filter (fun c => !isDelimiter c) =
          text.toList.filter (fun c => !isDelimiter c) := by
  obtain ⟨hlegible, hnesting⟩ := Expr.legible_of_parseChars h
  obtain ⟨e', hparse, halike⟩ := Expr.parseWithin_encode hlegible hnesting
  obtain ⟨hchars, -, -, -⟩ := Expr.alike_singleton.mp halike
  obtain ⟨items, hd, -, rfl⟩ := derives_of_read h
  have hstrikes : Strikes text.toList (collapse items).encode.toList := by
    rw [Expr.toList_encode, ← hd.chars_eq]
    exact strikes_collapse items
  refine ⟨⟨e', hparse, ?_⟩, hstrikes, hstrikes.filter_eq⟩
  rw [Expr.encode, Expr.encode, hchars]

/-- Empty branches and groups go, and groups of one branch lose their brackets. The tree that comes
back is another one, since literals that were parted are now one. -/
theorem canonicalText_stable_mixed :
    let e := Expr.seq [.alt (.term "a") [.term "b"], .term "x", .term "y", .term "z"]
    Expr.parseWithin 2 "<|a|<|>|<b>>x<>y<z|>" = .ok e ∧ e.encode = "<a|b>xyz" ∧
      (∃ e', Expr.parseWithin 2 "<a|b>xyz" = .ok e' ∧ e'.encode = "<a|b>xyz" ∧ e' ≠ e) ∧
        Strikes "<|a|<|>|<b>>x<>y<z|>".toList "<a|b>xyz".toList := by
  intro e
  have hparse : Expr.parseWithin 2 "<|a|<|>|<b>>x<>y<z|>" = .ok e := by decide
  have hencode : e.encode = "<a|b>xyz" := by decide
  obtain ⟨⟨e', hread, hagain⟩, hstrikes, -⟩ := canonicalText_stable hparse
  rw [hencode] at hread hagain hstrikes
  refine ⟨hparse, hencode, ⟨e', hread, hagain, ?_⟩, hstrikes⟩
  rintro rfl
  exact absurd hread (by decide)

end ChoiceGrammar.Markup
