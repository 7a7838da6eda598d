import ChoiceGrammar.Proofs.Markup.Accepting

/-!
# Unique readability

A text has one derivation at most: where a run ends, and which brackets and bars belong together, is
settled by the delimiters. With the two directions of reading this says what parsing does.
-/

namespace ChoiceGrammar.Markup

theorem literal_unique {s t u v : List Char} (hs : ∀ c ∈ s, isDelimiter c = false)
    (ht : ∀ c ∈ t, isDelimiter c = false) (hu : AtDelimiter u) (hv : AtDelimiter v)
    (h : s ++ u = t ++ v) : s = t ∧ u = v := by
  induction s generalizing t with
  | nil =>
      cases t with
      | nil => exact ⟨rfl, h⟩
      | cons d ds =>
          rw [show u = d :: (ds ++ v) from h] at hu
          simp [AtDelimiter, ht d] at hu
  | cons c cs ih =>
      cases t with
      | nil =>
          rw [show v = c :: (cs ++ u) from h.symm] at hv
          simp [AtDelimiter, hs c] at hv
      | cons d ds =>
          obtain ⟨hcd, htail⟩ := List.cons.inj h
          have hcs : ∀ x ∈ cs, isDelimiter x = false := by
            intro x hx
            exact hs x (List.mem_cons_of_mem c hx)
          have hds : ∀ x ∈ ds, isDelimiter x = false := by
            intro x hx
            exact ht x (List.mem_cons_of_mem d hx)
          obtain ⟨hst, huv⟩ := ih hcs hds htail
          exact ⟨by rw [hcd, hst], huv⟩

theorem not_atEnd_item {item : Item} (h : item.WellFormed) (rest : List Char) :
    ¬ AtEnd (item.chars ++ rest) := by
  cases item with
  | run text =>
      intro he
      obtain ⟨c, cs, hl, hc⟩ := h.run_cons
      simp only [Item.chars, hl, List.cons_append, AtEnd] at he
      rcases he with rfl | rfl <;> simp [isDelimiter] at hc
  | group first branches =>
      intro he
      simp [Item.chars, AtEnd] at he

theorem run_ne_group {text : String} {first : List Item} {branches : List (List Item)}
    {u v : List Char} (h : (Item.run text).WellFormed) :
    (Item.run text).chars ++ u ≠ (Item.group first branches).chars ++ v := by
  intro he
  obtain ⟨c, cs, hl, hc⟩ := h.run_cons
  simp only [Item.chars, hl, List.cons_append, List.cons.injEq] at he
  rw [he.1] at hc
  simp [isDelimiter] at hc

mutual
theorem item_unique (x y : Item) {u v : List Char} (hx : x.WellFormed) (hy : y.WellFormed)
    (hu : ∀ text, x = .run text → AtDelimiter u) (hv : ∀ text, y = .run text → AtDelimiter v)
    (h : x.chars ++ u = y.chars ++ v) : x = y ∧ u = v := by
  cases x with
  | run s =>
      cases y with
      | run t =>
          obtain ⟨hst, huv⟩ := literal_unique hx.2 hy.2 (hu s rfl) (hv t rfl) h
          exact ⟨by rw [String.toList_inj.mp hst], huv⟩
      | group first branches => exact absurd h (run_ne_group hx)
  | group first branches =>
      cases y with
      | run t => exact absurd h.symm (run_ne_group hy)
      | group first' branches' =>
          simp only [Item.chars, List.cons_append, List.append_assoc] at h
          have h' := (List.cons.inj h).2
          obtain ⟨rfl, h''⟩ := sequence_unique first first' hx.1 hy.1
            (atEnd_barredChars branches u) (atEnd_barredChars branches' v) h'
          obtain ⟨rfl, huv⟩ := barred_unique branches branches' hx.2 hy.2 h''
          exact ⟨rfl, huv⟩

theorem sequence_unique (xs ys : List Item) {u v : List Char} (hx : SequenceWellFormed xs)
    (hy : SequenceWellFormed ys) (hu : AtEnd u) (hv : AtEnd v)
    (h : sequenceChars xs ++ u = sequenceChars ys ++ v) : xs = ys ∧ u = v := by
  cases xs with
  | nil =>
      cases ys with
      | nil => exact ⟨rfl, h⟩
      | cons y ys =>
          rw [sequenceChars, List.nil_append, sequenceChars, List.append_assoc] at h
          exact absurd (h ▸ hu) (not_atEnd_item hy.1 _)
  | cons x xs =>
      cases ys with
      | nil =>
          rw [sequenceChars, sequenceChars, List.append_assoc, List.nil_append] at h
          exact absurd (h ▸ hv) (not_atEnd_item hx.1 _)
      | cons y ys =>
          simp only [sequenceChars, List.append_assoc] at h
          have hbehind := atDelimiter_of_separated hx.2.1 hu
          have hbehind' := atDelimiter_of_separated hy.2.1 hv
          obtain ⟨rfl, h'⟩ := item_unique x y hx.1 hy.1 hbehind hbehind' h
          obtain ⟨rfl, huv⟩ := sequence_unique xs ys hx.2.2 hy.2.2 hu hv h'
          exact ⟨rfl, huv⟩

theorem barred_unique (bs cs : List (List Item)) {u v : List Char} (hb : BranchesWellFormed bs)
    (hc : BranchesWellFormed cs) (h : barredChars bs ++ u = barredChars cs ++ v) :
    bs = cs ∧ u = v := by
  cases bs with
  | nil =>
      cases cs with
      | nil => exact ⟨rfl, (List.cons.inj h).2⟩
      | cons c cs => simp [barredChars] at h
  | cons b bs =>
      cases cs with
      | nil => simp [barredChars] at h
      | cons c cs =>
          simp only [barredChars, List.cons_append, List.append_assoc] at h
          have h' := (List.cons.inj h).2
          obtain ⟨rfl, h''⟩ := sequence_unique b c hb.1 hc.1
            (atEnd_barredChars bs u) (atEnd_barredChars cs v) h'
          obtain ⟨rfl, huv⟩ := barred_unique bs cs hb.2 hc.2 h''
          exact ⟨rfl, huv⟩
end

theorem Derives.unique {xs ys : List Item} {text : List Char} (hx : Derives xs text)
    (hy : Derives ys text) : xs = ys := by
  have h : sequenceChars xs ++ [] = sequenceChars ys ++ [] := by rw [hx.chars_eq, hy.chars_eq]
  exact (sequence_unique xs ys hx.wellFormed hy.wellFormed atEnd_nil atEnd_nil h).1

/-- A text is accepted exactly when it has a derivation within the nesting limit. The derivation is
the only one that the text has, and its collapse is the expression parsed. -/
theorem parseWithin_derivation (limit : Nat) (text : String) :
    ((∃ e, Expr.parseWithin limit text = .ok e) ↔
        ∃ items, Derives items text.toList ∧ sequenceNesting items ≤ limit) ∧
      ∀ items, Derives items text.toList →
        (∀ others, Derives others text.toList → others = items) ∧
          (sequenceNesting items ≤ limit →
            Expr.parseWithin limit text = .ok (collapse items)) := by
  refine ⟨⟨?_, ?_⟩, ?_⟩
  · rintro ⟨e, he⟩
    obtain ⟨items, hd, hn, -⟩ := derives_of_read he
    exact ⟨items, hd, hn⟩
  · rintro ⟨items, hd, hn⟩
    exact ⟨collapse items, read_of_derives hd hn⟩
  · intro items hd
    exact ⟨fun others ho => ho.unique hd, fun hn => read_of_derives hd hn⟩

/-- The group of one branch counts as a level although nothing is left of it. -/
theorem parseWithin_derivation_nested :
    let items : List Item := [.group [.run "a"] [[], [.group [.run "b"] []]], .run "c"]
    Derives items "<a||<b>>c".toList ∧
      Expr.parseWithin 2 "<a||<b>>c" = .ok (.seq [.alt (.term "a") [.term "b"], .term "c"]) ∧
        ¬ ∃ e, Expr.parseWithin 1 "<a||<b>>c" = .ok e := by
  intro items
  have hd : Derives items "<a||<b>>c".toList := by
    refine ⟨?_, by decide⟩
    simp [items, SequenceWellFormed, BranchesWellFormed, Item.WellFormed, Separated, isDelimiter]
  have hnesting : sequenceNesting items = 2 := by decide
  obtain ⟨-, htwo⟩ := parseWithin_derivation 2 "<a||<b>>c"
  obtain ⟨hunique, hread⟩ := htwo items hd
  obtain ⟨hone, -⟩ := parseWithin_derivation 1 "<a||<b>>c"
  refine ⟨hd, hread (by omega), ?_⟩
  rw [hone]
  rintro ⟨others, ho, hle⟩
  rw [hunique others ho] at hle
  omega

end ChoiceGrammar.Markup
