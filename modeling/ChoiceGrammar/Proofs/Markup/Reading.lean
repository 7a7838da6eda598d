import ChoiceGrammar.Expr.Parse
import ChoiceGrammar.Proofs.Markup.Derivation

/-!
# Reading a derivation

The reader goes over the text of a derivation within the nesting limit without a fault, and what it
has built then is the collapse of the derivation. `run_item`, `run_sequence` and `run_barred` follow
the derivation from any progress with no literal pending.
-/

namespace ChoiceGrammar.Markup

private theorem reverse_toList {α : Type} (o : Option α) : o.toList.reverse = o.toList := by
  cases o <;> rfl

namespace Progress

/-- The reader with its pending literal made a term. -/
def settled (p : Progress) : Progress := ⟨p.position, p.stack, p.flushed, []⟩

theorem flushed_of_literal_nil {p : Progress} (h : p.literal = []) : p.flushed = p.items := by
  simp [flushed, h]

theorem step_literal (limit : Nat) (p : Progress) {c : Char} (h : isDelimiter c = false) :
    p.step limit c = .ok ⟨p.position + 1, p.stack, p.items, c :: p.literal⟩ := by
  simp only [isDelimiter, Bool.or_eq_false_iff, beq_eq_false_iff_ne] at h
  unfold step
  split
  · exact absurd rfl h.1.1
  · exact absurd rfl h.1.2
  · exact absurd rfl h.2
  · rfl

/-- What reading one character can do, seen from its outcome. -/
inductive Step (limit : Nat) (p : Progress) : Char → Progress → Prop where
  | opening (h : p.stack.length < limit) :
      Step limit p '<' ⟨p.position + 1, ⟨p.position, p.flushed, []⟩ :: p.stack, [], []⟩
  | bar {g : OpenGroup} {stack : List OpenGroup} (h : p.stack = g :: stack) :
      Step limit p '|' ⟨p.position + 1,
        ⟨g.openedAt, g.before, p.sequence.toList ++ g.branches⟩ :: stack, [], []⟩
  | closing {g : OpenGroup} {stack : List OpenGroup} (h : p.stack = g :: stack) :
      Step limit p '>' ⟨p.position + 1, stack,
        (collapseGroup (p.sequence.toList ++ g.branches).reverse).toList ++ g.before, []⟩
  | literal {c : Char} (h : isDelimiter c = false) :
      Step limit p c ⟨p.position + 1, p.stack, p.items, c :: p.literal⟩

theorem step_cases {limit : Nat} {p q : Progress} {c : Char} (h : p.step limit c = .ok q) :
    Step limit p c q := by
  by_cases hc : isDelimiter c = true
  · simp only [isDelimiter, Bool.or_eq_true, beq_iff_eq] at hc
    rcases hc with (rfl | rfl) | rfl
    · simp only [step] at h
      split at h
      · simp at h
      · next hlt =>
          cases h
          exact .opening (Nat.lt_of_not_le hlt)
    · simp only [step] at h
      split at h
      · simp at h
      · next hs =>
          cases h
          exact .bar hs
    · simp only [step] at h
      split at h
      · simp at h
      · next hs =>
          cases h
          exact .closing hs
  · rw [Bool.not_eq_true] at hc
    rw [step_literal limit p hc] at h
    cases h
    exact .literal hc

theorem run_literal (limit : Nat) (p : Progress) (text rest : List Char)
    (h : ∀ c ∈ text, isDelimiter c = false) :
    p.run limit (text ++ rest) =
      run limit ⟨p.position + text.length, p.stack, p.items, text.reverse ++ p.literal⟩ rest := by
  induction text generalizing p with
  | nil => rfl
  | cons c cs ih =>
      have hc := step_literal limit p (h c (by simp))
      simp only [List.cons_append, run, hc]
      rw [ih _ (fun d hd => h d (by simp [hd]))]
      simp only [List.length_cons, List.reverse_cons, List.append_assoc, List.singleton_append]
      congr 2
      omega

theorem run_settled (limit : Nat) (p : Progress) {rest : List Char} (h : AtDelimiter rest) :
    p.run limit rest = p.settled.run limit rest := by
  have hf : p.settled.flushed = p.flushed := flushed_of_literal_nil rfl
  have hs : p.settled.sequence = p.sequence := by simp only [sequence, hf]
  cases rest with
  | nil => simp only [run, finish, hs]; rfl
  | cons c cs =>
      simp only [AtDelimiter, isDelimiter, Bool.or_eq_true, beq_iff_eq] at h
      rcases h with (rfl | rfl) | rfl <;> simp only [run, step, hf, hs] <;> rfl

theorem run_term (limit : Nat) (p : Progress) (text : String) (rest : List Char)
    (hp : p.literal = []) (hne : text ≠ "") (ht : ∀ c ∈ text.toList, isDelimiter c = false)
    (hr : AtDelimiter rest) :
    p.run limit (text.toList ++ rest) =
      run limit ⟨p.position + text.toList.length, p.stack, .term text :: p.items, []⟩ rest := by
  rw [run_literal limit p _ _ ht, run_settled limit _ hr]
  congr 1
  cases hl : text.toList with
  | nil => exact absurd (String.toList_eq_nil_iff.mp hl) hne
  | cons c cs =>
      have hrev : (c :: cs).reverse.reverse = text.toList := by rw [List.reverse_reverse, hl]
      cases hcs : (c :: cs).reverse with
      | nil => simp at hcs
      | cons d ds =>
          rw [hcs] at hrev
          simp [settled, flushed, hp, hrev]

/-- The reader behind so many characters of which these items remain. -/
def past (p : Progress) (length : Nat) (items : List Expr) : Progress :=
  ⟨p.position + length, p.stack, items.reverse ++ p.items, []⟩

theorem past_past (p : Progress) (m n : Nat) (xs ys : List Expr) :
    (p.past m xs).past n ys = p.past (m + n) (xs ++ ys) := by
  simp [past, Nat.add_assoc]

mutual
theorem run_item (limit : Nat) (p : Progress) (item : Item) (rest : List Char)
    (hp : p.literal = []) (h : item.WellFormed) (hn : p.stack.length + item.nesting ≤ limit)
    (hr : ∀ text, item = .run text → AtDelimiter rest) :
    p.run limit (item.chars ++ rest) =
      (p.past item.chars.length item.collapse.toList).run limit rest := by
  cases item with
  | run text => exact run_term limit p text rest hp h.1 h.2 (hr text rfl)
  | group first branches =>
      simp only [Item.nesting] at hn
      let opened : Progress := ⟨p.position + 1, ⟨p.position, p.flushed, []⟩ :: p.stack, [], []⟩
      let behind := opened.past (sequenceChars first).length (survivingItems first)
      have hopen : p.step limit '<' = .ok opened := by
        simp only [step]
        rw [if_neg (by omega)]
      have hfirst := run_sequence limit opened first (barredChars branches ++ rest) rfl h.1
        (by simp only [opened, List.length_cons]; omega) (atEnd_barredChars branches rest)
      have hrest := run_barred limit behind ⟨_, _, []⟩ p.stack branches rest rfl h.2
        (by simp only [behind, opened, past, List.length_cons]; omega)
      simp only [Item.chars, List.cons_append, List.append_assoc, run, hopen]
      rw [hfirst, hrest]
      congr 2
      · simp only [behind, past, opened, List.length_cons, List.length_append]
        omega
      · simp [behind, past, opened, sequence, flushed, hp, Item.collapse, reverse_toList,
          collapseSequence_eq, collapseGroup_eq]

theorem run_sequence (limit : Nat) (p : Progress) (items : List Item) (rest : List Char)
    (hp : p.literal = []) (h : SequenceWellFormed items)
    (hn : p.stack.length + sequenceNesting items ≤ limit) (hr : AtEnd rest) :
    p.run limit (sequenceChars items ++ rest) =
      (p.past (sequenceChars items).length (survivingItems items)).run limit rest := by
  cases items with
  | nil => cases p; simp_all [sequenceChars, survivingItems, past]
  | cons item items =>
      simp only [sequenceNesting] at hn
      have hitem := run_item limit p item (sequenceChars items ++ rest) hp h.1 (by omega)
        (atDelimiter_of_separated h.2.1 hr)
      have hitems := run_sequence limit (p.past item.chars.length item.collapse.toList) items rest
        rfl h.2.2 (by simp only [past]; omega) hr
      simp only [sequenceChars, List.append_assoc]
      rw [hitem, hitems, past_past]
      simp [survivingItems]

theorem run_barred (limit : Nat) (p : Progress) (g : OpenGroup) (stack : List OpenGroup)
    (branches : List (List Item)) (rest : List Char) (hs : p.stack = g :: stack)
    (h : BranchesWellFormed branches)
    (hn : p.stack.length + branchesNesting branches ≤ limit) :
    p.run limit (barredChars branches ++ rest) =
      run limit ⟨p.position + (barredChars branches).length, stack,
        (collapseGroup (g.branches.reverse ++ (p.sequence.toList ++
          survivingBranches branches))).toList ++ g.before, []⟩ rest := by
  cases branches with
  | nil =>
      simp only [barredChars, List.cons_append, List.nil_append, run, step, hs]
      simp [survivingBranches, reverse_toList]
  | cons branch branches =>
      simp only [branchesNesting] at hn
      let next : Progress :=
        ⟨p.position + 1, { g with branches := p.sequence.toList ++ g.branches } :: stack, [], []⟩
      have hbar : p.step limit '|' = .ok next := by simp only [step, hs, next]
      have hlen : next.stack.length = p.stack.length := by simp [next, hs]
      have hbranch := run_sequence limit next branch (barredChars branches ++ rest) rfl h.1
        (by omega) (atEnd_barredChars branches rest)
      let behind := next.past (sequenceChars branch).length (survivingItems branch)
      have hrest := run_barred limit behind _ stack branches rest rfl h.2
        (by simp only [behind, past]; omega)
      simp only [barredChars, List.cons_append, List.append_assoc, run, hbar]
      rw [hbranch, hrest]
      congr 2
      · simp only [behind, past, next, List.length_cons, List.length_append]
        omega
      · simp [behind, past, next, sequence, flushed, survivingBranches, reverse_toList,
          collapseSequence_eq]
end

end Progress

/-- A derivation within the limit is read, and its collapse is what is read. -/
theorem read_of_derives {limit : Nat} {items : List Item} {text : List Char}
    (h : Derives items text) (hn : sequenceNesting items ≤ limit) :
    read limit text = .ok (collapse items) := by
  have hrun := Progress.run_sequence limit .start items [] rfl h.wellFormed
    (by simpa [Progress.start] using hn) atEnd_nil
  rw [List.append_nil, h.chars_eq] at hrun
  rw [read, hrun]
  simp [Progress.run, Progress.finish, Progress.past, Progress.start, Progress.sequence,
    Progress.flushed, collapse, collapseSequence_eq]

end ChoiceGrammar.Markup
