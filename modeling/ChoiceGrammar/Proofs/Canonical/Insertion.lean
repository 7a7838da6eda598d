import ChoiceGrammar.Proofs.Canonical.Pruning
import ChoiceGrammar.Proofs.Markup.Violations

/-!
# Markup without literals

Groups without a literal can be put anywhere into a text. The reader comes out of them with the same
groups open and the same items behind it, but its pending literal has become a term. From there on
the two readings differ in where literals are parted, and what they build in the end is alike.
-/

namespace ChoiceGrammar.Markup

/-- Items, latest first, that no sequence of theirs can be told apart by. -/
structure ItemsAlike (xs ys : List Expr) : Prop where
  nil_iff : xs = [] ↔ ys = []
  alike : Expr.Alike xs.reverse ys.reverse

structure OpenGroup.Alike (g h : OpenGroup) : Prop where
  before : ItemsAlike g.before h.before
  branches : Expr.BranchesAlike g.branches h.branches

/-- The same groups are open, with what was read in them alike. -/
structure Progress.Alike (p q : Progress) : Prop where
  stack : List.Forall₂ OpenGroup.Alike p.stack q.stack
  flushed : ItemsAlike p.flushed q.flushed

theorem ItemsAlike.refl (xs : List Expr) : ItemsAlike xs xs := ⟨Iff.rfl, .refl _⟩

theorem ItemsAlike.symm {xs ys : List Expr} (h : ItemsAlike xs ys) : ItemsAlike ys xs :=
  ⟨h.nil_iff.symm, h.alike.symm⟩

theorem ItemsAlike.trans {xs ys zs : List Expr} (h : ItemsAlike xs ys) (h' : ItemsAlike ys zs) :
    ItemsAlike xs zs :=
  ⟨h.nil_iff.trans h'.nil_iff, h.alike.trans h'.alike⟩

theorem ItemsAlike.append {xs ys zs ws : List Expr} (h : ItemsAlike xs ys)
    (h' : ItemsAlike zs ws) : ItemsAlike (xs ++ zs) (ys ++ ws) := by
  refine ⟨?_, ?_⟩
  · rw [List.append_eq_nil_iff, List.append_eq_nil_iff, h.nil_iff, h'.nil_iff]
  · rw [List.reverse_append, List.reverse_append]
    exact h'.alike.append h.alike

theorem OpenGroup.Alike.refl (g : OpenGroup) : g.Alike g :=
  ⟨.refl _, List.forall₂_same.mpr fun e _ => .refl [e]⟩

theorem branchesAlike_toList_iff {a b : Option Expr} :
    Expr.BranchesAlike a.toList b.toList ↔ Option.Rel (fun e f => Expr.Alike [e] [f]) a b := by
  constructor
  · intro h
    cases a with
    | none =>
        cases b with
        | none => exact .none
        | some f => cases h
    | some e =>
        cases b with
        | none => cases h
        | some f => exact .some (List.forall₂_cons.mp h).1
  · intro h
    cases h with
    | none => exact .nil
    | some halike => exact .cons halike .nil

theorem branchesAlike_toList {a b : Option Expr} (hnone : a = none ↔ b = none)
    (h : Expr.Alike a.toList b.toList) : Expr.BranchesAlike a.toList b.toList := by
  apply branchesAlike_toList_iff.mpr
  cases a with
  | none =>
      rw [hnone.mp rfl]
      exact .none
  | some e =>
      cases b with
      | none => simp at hnone
      | some f => exact .some h

theorem itemsAlike_toList {a b : Option Expr} (h : Expr.BranchesAlike a.toList b.toList) :
    ItemsAlike a.toList b.toList := by
  cases branchesAlike_toList_iff.mp h with
  | none => exact .refl []
  | some halike => exact ⟨by simp, halike⟩

theorem alike_getD_empty {a b : Option Expr} (h : Expr.BranchesAlike a.toList b.toList) :
    Expr.Alike [a.getD .empty] [b.getD .empty] := by
  cases branchesAlike_toList_iff.mp h with
  | none => exact .refl _
  | some halike => exact halike

theorem ItemsAlike.sequenceOf {xs ys : List Expr} (h : ItemsAlike xs ys) :
    Expr.BranchesAlike (sequenceOf xs.reverse).toList (sequenceOf ys.reverse).toList := by
  apply branchesAlike_toList
  · rw [Markup.sequenceOf, joined_eq_none_iff, joined_eq_none_iff, List.reverse_eq_nil_iff,
      List.reverse_eq_nil_iff, h.nil_iff]
  · exact (alike_sequenceOf _).trans (h.alike.trans (alike_sequenceOf _).symm)

theorem branchesAlike_alternationOf {as bs : List Expr} (h : Expr.BranchesAlike as bs) :
    Expr.BranchesAlike (alternationOf as).toList (alternationOf bs).toList := by
  cases h with
  | nil => exact .nil
  | cons hfirst hrest =>
      cases hrest with
      | nil => exact .cons hfirst .nil
      | cons hsecond hothers => exact .cons (hfirst.alternation (.cons hsecond hothers)) .nil

namespace Progress

variable {limit : Nat} {p q p' : Progress}

theorem Alike.sequence (h : p.Alike q) :
    Expr.BranchesAlike p.sequence.toList q.sequence.toList := by
  rw [Progress.sequence, Progress.sequence, collapseSequence_eq, collapseSequence_eq]
  exact h.flushed.sequenceOf

theorem itemsAlike_flushed_literal (position : Nat) (p : Progress) (c : Char) :
    ItemsAlike (flushed ⟨position, p.stack, p.items, c :: p.literal⟩)
      (.term (.singleton c) :: p.flushed) := by
  refine ⟨by simp [flushed], ?_⟩
  rw [flushed, List.reverse_cons, List.reverse_cons, String.ofList_append, List.reverse_cons]
  cases hl : p.literal with
  | nil =>
      simp only [flushed, hl]
      exact .refl _
  | cons d ds =>
      simp only [flushed, hl, List.reverse_cons, List.append_assoc]
      exact (Expr.Alike.refl _).append (.join _ _ [])

theorem Alike.literal (h : p.Alike q) (c : Char) :
    Progress.Alike ⟨p.position + 1, p.stack, p.items, c :: p.literal⟩
      ⟨q.position + 1, q.stack, q.items, c :: q.literal⟩ := by
  refine ⟨h.stack, ?_⟩
  have hp := itemsAlike_flushed_literal (p.position + 1) p c
  have hq := itemsAlike_flushed_literal (q.position + 1) q c
  have hpq : ItemsAlike ([.term (.singleton c)] ++ p.flushed)
      ([.term (.singleton c)] ++ q.flushed) := (ItemsAlike.refl _).append h.flushed
  exact (hp.trans hpq).trans hq.symm

theorem Alike.closing {g g' : OpenGroup} (h : p.Alike q) (hg : g.Alike g') :
    ItemsAlike
      ((collapseGroup (p.sequence.toList ++ g.branches).reverse).toList ++ g.before)
      ((collapseGroup (q.sequence.toList ++ g'.branches).reverse).toList ++ g'.before) := by
  have hbranches : Expr.BranchesAlike (p.sequence.toList ++ g.branches).reverse
      (q.sequence.toList ++ g'.branches).reverse := by
    apply List.forall₂_reverse_iff.mpr
    exact List.rel_append h.sequence hg.branches
  rw [collapseGroup_eq, collapseGroup_eq]
  exact (itemsAlike_toList (branchesAlike_alternationOf hbranches)).append hg.before

theorem Alike.step (h : p.Alike q) {c : Char} (hp : p.step limit c = .ok p') :
    ∃ q', q.step limit c = .ok q' ∧ p'.Alike q' := by
  have hstack := h.stack
  cases step_cases hp with
  | opening hlt =>
      refine ⟨_, if_neg ?_, ?_⟩
      · rw [← hstack.length_eq]
        exact Nat.not_le_of_lt hlt
      · exact ⟨.cons ⟨h.flushed, .nil⟩ hstack, .refl []⟩
  | bar hs =>
      rw [hs] at hstack
      obtain ⟨g, stack, hg, hrest, hq⟩ := List.forall₂_cons_left_iff.mp hstack
      refine ⟨_, by rw [Progress.step, hq], ?_⟩
      exact ⟨.cons ⟨hg.before, List.rel_append h.sequence hg.branches⟩ hrest, .refl []⟩
  | closing hs =>
      rw [hs] at hstack
      obtain ⟨g, stack, hg, hrest, hq⟩ := List.forall₂_cons_left_iff.mp hstack
      refine ⟨_, by rw [Progress.step, hq], ?_⟩
      exact ⟨hrest, h.closing hg⟩
  | literal hc => exact ⟨_, step_literal limit q hc, h.literal c⟩

theorem Alike.finish (h : p.Alike q) {e : Expr} (hp : p.finish = .ok e) :
    ∃ e', q.finish = .ok e' ∧ Expr.Alike [e'] [e] := by
  have hstack := h.stack
  unfold Progress.finish at hp
  split at hp
  · next hs =>
      cases hp
      rw [hs, List.forall₂_nil_left_iff] at hstack
      exact ⟨q.sequence.getD .empty, by rw [Progress.finish, hstack],
        (alike_getD_empty h.sequence).symm⟩
  · cases hp

/-- Readings that are alike read any text that follows alike. -/
theorem Alike.run (h : p.Alike q) {text : List Char} {e : Expr} (hp : p.run limit text = .ok e) :
    ∃ e', q.run limit text = .ok e' ∧ Expr.Alike [e'] [e] := by
  induction text generalizing p q with
  | nil => exact h.finish hp
  | cons c cs ih =>
      rw [Progress.run] at hp
      split at hp
      · next p' hstep =>
          obtain ⟨q', hq, h'⟩ := h.step hstep
          rw [Progress.run, hq]
          exact ih h' hp
      · cases hp

theorem Tracks.behind {before text rest : List Char} {e : Expr} (h : p.Tracks limit before)
    (hp : p.run limit (text ++ rest) = .ok e) :
    ∃ q : Progress, q.Tracks limit (before ++ text) ∧
      ∀ rest, p.run limit (text ++ rest) = q.run limit rest := by
  induction text generalizing p before with
  | nil => exact ⟨p, by rwa [List.append_nil], fun _ => rfl⟩
  | cons c cs ih =>
      rw [List.cons_append, Progress.run] at hp
      split at hp
      · next p' hstep =>
          obtain ⟨q, hq, hrun⟩ := ih (h.step hstep) hp
          refine ⟨q, by simpa using hq, ?_⟩
          intro rest
          rw [List.cons_append, Progress.run, hstep]
          exact hrun rest
      · cases hp

theorem past_zero (hp : p.literal = []) : p.past 0 [] = p := by
  rw [past, ← hp]
  rfl

theorem run_without_literal {items : List Item} (hp : p.literal = [])
    (hw : SequenceWellFormed items) (hblank : hasLiteral items = false)
    (hn : p.stack.length + sequenceNesting items ≤ limit) (rest : List Char) :
    p.run limit (sequenceChars items ++ rest) =
      (p.past (sequenceChars items).length []).run limit rest := by
  induction items generalizing p with
  | nil =>
      rw [sequenceChars, List.length_nil, past_zero hp]
      rfl
  | cons item items ih =>
      rw [hasLiteral_cons, Bool.or_eq_false_iff] at hblank
      rw [sequenceNesting] at hn
      have hnone := collapse_eq_none item hw.1 hblank.1
      have hitem := run_item limit p item (sequenceChars items ++ rest) hp hw.1 (by omega) (by
        rintro text rfl
        simp [Item.collapse] at hnone)
      have hitems := ih (p := p.past item.chars.length []) rfl hw.2.2 hblank.2
        (by simp only [past]; omega)
      rw [sequenceChars, List.append_assoc, hitem, hnone]
      rw [Option.toList_none, hitems, past_past, List.length_append]
      rfl

/-- Markup without literals leaves a reading as it was, up to where literals are parted. -/
theorem exists_alike_behind {levels : Nat} {inserted : List Char} {x : Expr}
    (hmarkup : ∀ c ∈ inserted, isDelimiter c = true) (hread : read levels inserted = .ok x)
    (hn : p.stack.length + levels ≤ limit) :
    ∃ q : Progress, p.Alike q ∧ ∀ rest, p.run limit (inserted ++ rest) = q.run limit rest := by
  obtain ⟨items, ⟨hw, rfl⟩, hnesting, -⟩ := derives_of_read hread
  have hsame : List.Forall₂ OpenGroup.Alike p.stack p.stack :=
    List.forall₂_same.mpr fun g _ => .refl g
  by_cases hnil : sequenceChars items = []
  · refine ⟨p, ⟨hsame, .refl _⟩, ?_⟩
    intro rest
    rw [hnil, List.nil_append]
  · have hblank : hasLiteral items = false := by
      apply List.any_eq_false.mpr
      intro c hc
      simp [hmarkup c hc]
    refine ⟨p.settled.past (sequenceChars items).length [], ⟨hsame, .refl _⟩, ?_⟩
    intro rest
    have hdelimiter : AtDelimiter (sequenceChars items ++ rest) := by
      obtain ⟨c, cs, hc⟩ := List.exists_cons_of_ne_nil hnil
      rw [hc]
      exact hmarkup c (by simp [hc])
    rw [run_settled limit p hdelimiter]
    apply run_without_literal rfl hw hblank
    exact Nat.le_trans (Nat.add_le_add_left hnesting _) hn

end Progress

/-- Into a text that is accepted, markup without literals can be inserted at any place, as long as
the groups that are open there and the nesting of what is inserted keep within the limit. The text
is accepted as before, as a tree with the same canonical text, the same count and longest output,
and from every source of words the same text and the same words read. -/
theorem insertion_is_inert {limit levels : Nat} {u v inserted : String} {e x : Expr}
    (haccepted : Expr.parseWithin limit (u ++ v) = .ok e)
    (hmarkup : ∀ c ∈ inserted.toList, isDelimiter c = true)
    (hinserted : Expr.parseWithin levels inserted = .ok x)
    (hdepth : (openOffsets u.toList).length + levels ≤ limit) :
    ∃ e', Expr.parseWithin limit (u ++ inserted ++ v) = .ok e' ∧ e'.encode = e.encode ∧
      e'.count = e.count ∧ e'.maxLength = e.maxLength ∧
      ∀ source out, e'.expandOnto source out = e.expandOnto source out := by
  have hread : Progress.start.run limit (u.toList ++ v.toList) = .ok e := by
    rw [← String.toList_append]
    exact haccepted
  obtain ⟨p, htracks, hfirst⟩ := (Progress.tracks_start limit).behind hread
  have hopen : p.stack.length + levels ≤ limit := by
    rw [← List.length_map (f := OpenGroup.openedAt), htracks.opened_eq]
    exact hdepth
  obtain ⟨q, halike, hsecond⟩ := Progress.exists_alike_behind hmarkup hinserted hopen
  rw [hfirst] at hread
  obtain ⟨e', hrest, hsame⟩ := halike.run hread
  obtain ⟨hchars, hcount, hlength, hexpand⟩ := Expr.alike_singleton.mp hsame
  refine ⟨e', ?_, ?_, hcount, hlength, hexpand⟩
  · rw [Expr.parseWithin, Expr.parseChars, read, String.toList_append, String.toList_append,
      List.append_assoc, hfirst, hsecond, hrest]
  · rw [Expr.encode, Expr.encode, hchars]

/-- In the middle of a literal, two groups deep, a literal is parted in two and its branch becomes a
sequence. A third level is allowed there and a fourth is not. -/
theorem insertion_is_inert_inside_literal :
    let e := Expr.alt (.term "a") [.alt (.term "bc") [.term "d"]]
    let e' := Expr.alt (.term "a") [.alt (.seq [.term "b", .term "c"]) [.term "d"]]
    Expr.parseWithin 3 "<a|<bc|d>>" = .ok e ∧ Expr.parseWithin 1 "<|><>" = .ok .empty ∧
      openOffsets "<a|<b".toList = [3, 0] ∧ Expr.parseWithin 3 "<a|<b<|><>c|d>>" = .ok e' ∧
      (e'.encode = e.encode ∧ e'.count = e.count ∧ e'.maxLength = e.maxLength ∧
        ∀ source out, e'.expandOnto source out = e.expandOnto source out) ∧
      Expr.parseWithin 3 "<a|<b<<>>c|d>>" = .error (.tooDeep 6 3) := by
  intro e e'
  have haccepted : Expr.parseWithin 3 ("<a|<b" ++ "c|d>>") = .ok e := by decide
  have hinserted : Expr.parseWithin 1 "<|><>" = .ok .empty := by decide
  have hopen : openOffsets "<a|<b".toList = [3, 0] := by decide
  have hwhole : Expr.parseWithin 3 ("<a|<b" ++ "<|><>" ++ "c|d>>") = .ok e' := by decide
  have hdepth : (openOffsets "<a|<b".toList).length + 1 ≤ 3 := by decide
  have hmarkup : ∀ c ∈ "<|><>".toList, isDelimiter c = true := List.all_eq_true.mp (by decide)
  obtain ⟨whole, hread, hsame⟩ := insertion_is_inert haccepted hmarkup hinserted hdepth
  obtain rfl : whole = e' := Except.ok.inj (hread.symm.trans hwhole)
  exact ⟨haccepted, hinserted, hopen, hwhole, hsame, by decide⟩

end ChoiceGrammar.Markup
