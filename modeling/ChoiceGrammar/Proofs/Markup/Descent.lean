import ChoiceGrammar.Markup.Descent
import ChoiceGrammar.Proofs.Markup.Reading

/-!
# The descent and the one-pass reader

The stack of the one-pass reader holds what the calls of the descent hold, so that the two readings
of a text come to the same expression or the same error.
-/

namespace ChoiceGrammar.Markup

variable {limit : Nat} {origin next : Cursor} {unread : List Char} {p : Progress}

/-- The one-pass reader, with its faults as build errors. -/
def Progress.complete (limit : Nat) (p : Progress) (unread : List Char) : Except BuildError Expr :=
  (p.run limit unread).mapError .markup

/-- What the one-pass reader makes of the text behind a sequence, inside the open groups. -/
def SequenceEnd.resume (limit : Nat) (stack : List OpenGroup) (ended : SequenceEnd origin) :
    Except BuildError Expr :=
  let next := ended.cursor
  match ended.stop, stack with
  | .textEnd, [] => .ok (ended.remains.getD .empty)
  | .textEnd, g :: _ => .error (.markup (.unterminated g.openedAt))
  | .bar, [] => .error (.markup (.trailingInput (next.offset - 1) '|'))
  | .bar, g :: stack =>
      let branches := ended.remains.toList ++ g.branches
      Progress.complete limit ⟨next.offset, { g with branches } :: stack, [], []⟩ next.unread
  | .closing, [] => .error (.markup (.trailingInput (next.offset - 1) '>'))
  | .closing, g :: stack =>
      let group := collapseGroup (ended.remains.toList ++ g.branches).reverse
      Progress.complete limit ⟨next.offset, stack, group.toList ++ g.before, []⟩ next.unread

theorem remainingGroup_eq (branches : List Expr) :
    remainingGroup branches = .ok (collapseGroup branches) := by
  rcases branches with _ | ⟨_, _ | ⟨_, _⟩⟩ <;> rfl

theorem withLiteral_eq (p : Progress) : withLiteral p.literal p.items = p.flushed := by
  cases h : p.literal <;> simp [withLiteral, Progress.flushed, h]

theorem complete_nil (h : next.Follows origin)
    (hlt : Stop.textEnd ≠ .textEnd → next.unread.length < origin.unread.length) :
    p.complete limit [] =
      SequenceEnd.resume limit p.stack ⟨p.sequence, .textEnd, next, h, hlt⟩ := by
  rw [Progress.complete, Progress.run, Progress.finish]
  cases p.stack <;> rfl

theorem complete_cons (limit : Nat) (p : Progress) (char : Char) (unread : List Char) :
    p.complete limit (char :: unread) =
      ((p.step limit char).mapError .markup).bind (Progress.complete limit · unread) := by
  rw [Progress.complete, Progress.run]
  cases p.step limit char <;> rfl

theorem complete_opening (limit : Nat) (p : Progress) (unread : List Char) :
    p.complete limit ('<' :: unread) =
      if limit ≤ p.stack.length then .error (.markup (.tooDeep p.position limit))
      else Progress.complete limit
        ⟨p.position + 1, ⟨p.position, p.flushed, []⟩ :: p.stack, [], []⟩ unread := by
  rw [complete_cons, Progress.step]
  by_cases hlimit : limit ≤ p.stack.length
  · rw [if_pos hlimit, if_pos hlimit]
    rfl
  · rw [if_neg hlimit, if_neg hlimit]
    rfl

theorem complete_bar (hoffset : next.offset = p.position + 1) (h : next.Follows origin)
    (hlt : Stop.bar ≠ .textEnd → next.unread.length < origin.unread.length) :
    p.complete limit ('|' :: next.unread) =
      SequenceEnd.resume limit p.stack ⟨p.sequence, .bar, next, h, hlt⟩ := by
  rw [complete_cons, Progress.step]
  cases p.stack <;> simp only [SequenceEnd.resume, hoffset, Nat.add_sub_cancel] <;> rfl

theorem complete_closing (hoffset : next.offset = p.position + 1) (h : next.Follows origin)
    (hlt : Stop.closing ≠ .textEnd → next.unread.length < origin.unread.length) :
    p.complete limit ('>' :: next.unread) =
      SequenceEnd.resume limit p.stack ⟨p.sequence, .closing, next, h, hlt⟩ := by
  rw [complete_cons, Progress.step]
  cases p.stack <;> simp only [SequenceEnd.resume, hoffset, Nat.add_sub_cancel] <;> rfl

theorem complete_literal (limit : Nat) (p : Progress) {char : Char} (h : isDelimiter char = false)
    (unread : List Char) :
    p.complete limit (char :: unread) =
      Progress.complete limit ⟨p.position + 1, p.stack, p.items, char :: p.literal⟩ unread := by
  rw [complete_cons, Progress.step_literal limit p h]
  rfl

mutual
theorem complete_sequence (limit : Nat) {origin : Cursor} (c : Cursor) (h : c.Follows origin)
    (p : Progress) (hoffset : p.position = c.offset) (hopened : c.opened = p.stack.length) :
    p.complete limit c.unread =
      (readSequence limit c h p.items p.literal).bind (SequenceEnd.resume limit p.stack) := by
  rw [readSequence, withLiteral_eq]
  split
  · next hnext =>
      rw [Cursor.next?_eq_none hnext]
      exact complete_nil h _
  · next char next hnext =>
      have hstep := Cursor.step_of_next? hnext
      have hlength := hstep.length_eq
      have hnextOffset : next.offset = p.position + 1 := by rw [hstep.offset_eq, hoffset]
      have hnextOpened : next.opened = p.stack.length := hstep.opened_eq.trans hopened
      refine (congrArg (p.complete limit) hstep.unread_eq).trans ?_
      by_cases hopening : char = '<'
      · subst hopening
        rw [if_pos rfl, hnextOpened, complete_opening]
        by_cases hlimit : limit ≤ p.stack.length
        · rw [if_pos hlimit, if_pos hlimit, hnextOffset]
          rfl
        · have hopenedAt : next.offset - 1 = p.position := by rw [hnextOffset, Nat.add_sub_cancel]
          have hgroup := complete_group limit (next.offset - 1) next p.flushed p.stack hnextOpened
          rw [if_neg hlimit, if_neg hlimit, ← hnextOffset, ← hopenedAt, hgroup]
          cases readGroup limit (next.offset - 1) next with
          | error error => rfl
          | ok group =>
              have hbehind := group.length_lt
              exact complete_sequence limit group.cursor
                (group.follows.trans (hstep.follows.trans h))
                ⟨group.cursor.offset, p.stack, group.remains.toList ++ p.flushed, []⟩ rfl
                (group.follows.opened_eq.trans hnextOpened)
      rw [if_neg hopening]
      by_cases hbar : char = '|'
      · subst hbar
        rw [if_pos rfl]
        exact complete_bar hnextOffset _ _
      rw [if_neg hbar]
      by_cases hclosing : char = '>'
      · subst hclosing
        rw [if_pos rfl]
        exact complete_closing hnextOffset _ _
      have hliteral : isDelimiter char = false := by simp [isDelimiter, hopening, hbar, hclosing]
      rw [if_neg hclosing, complete_literal limit p hliteral]
      exact complete_sequence limit next (hstep.follows.trans h) _ hnextOffset.symm hnextOpened
termination_by 3 * c.unread.length

theorem complete_branches (limit : Nat) {origin : Cursor} (c : Cursor) (h : c.Follows origin)
    (g : OpenGroup) (stack : List OpenGroup) (hopened : c.opened = stack.length + 1) :
    Progress.complete limit ⟨c.offset, g :: stack, [], []⟩ c.unread =
      (readBranches limit g.openedAt c h g.branches).bind fun ended =>
        Progress.complete limit
          ⟨ended.cursor.offset, stack, (collapseGroup ended.remains).toList ++ g.before, []⟩
          ended.cursor.unread := by
  rw [complete_sequence limit c (.refl c) ⟨c.offset, g :: stack, [], []⟩ rfl hopened, readBranches]
  cases readSequence limit c (.refl c) [] [] with
  | error error => rfl
  | ok ended =>
      obtain ⟨remains, stop, next, hnext, hlt⟩ := ended
      cases stop with
      | textEnd => rfl
      | bar =>
          have hbar := hlt (by simp)
          exact complete_branches limit next (hnext.trans h)
            { g with branches := remains.toList ++ g.branches } stack
            (hnext.opened_eq.trans hopened)
      | closing => rfl
termination_by 3 * c.unread.length + 1

theorem complete_group (limit openedAt : Nat) (c : Cursor) (before : List Expr)
    (stack : List OpenGroup) (hopened : c.opened = stack.length) :
    Progress.complete limit ⟨c.offset, ⟨openedAt, before, []⟩ :: stack, [], []⟩ c.unread =
      (readGroup limit openedAt c).bind fun ended =>
        Progress.complete limit
          ⟨ended.cursor.offset, stack, ended.remains.toList ++ before, []⟩
          ended.cursor.unread := by
  have hbranches := complete_branches limit { c with opened := c.opened + 1 } (.refl _)
    ⟨openedAt, before, []⟩ stack (congrArg (· + 1) hopened)
  rw [hbranches, readGroup]
  cases readBranches limit openedAt { c with opened := c.opened + 1 } (.refl _) [] with
  | error error => rfl
  | ok ended => simp [remainingGroup_eq, Except.map, Except.bind]
termination_by 3 * c.unread.length + 2
end

theorem descend_eq (limit : Nat) (text : List Char) :
    descend limit text = (read limit text).mapError .markup := by
  have hsequence := complete_sequence limit ⟨text, 0, 0⟩ (.refl _) .start rfl rfl
  refine Eq.trans ?_ hsequence.symm
  rw [descend]
  congr 1
  funext ended
  obtain ⟨remains, stop, next, hnext, hlt⟩ := ended
  cases stop <;> rfl

end ChoiceGrammar.Markup
