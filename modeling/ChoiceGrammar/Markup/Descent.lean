import ChoiceGrammar.Expr.Build

/-!
# Reading by descent

A sequence is read by one routine and a group by another, each of which calls the other; they share
a cursor that counts the open groups. A sequence that ends before the text, and every group, leaves
less to read than it found, and so the calls come to an end.
-/

namespace ChoiceGrammar.Markup

/-- What is unread of a text, the offset where that begins, and the number of open groups. -/
structure Cursor where
  unread : List Char
  offset : Nat
  opened : Nat

namespace Cursor

def next? (c : Cursor) : Option (Char × Cursor) :=
  match c.unread with
  | [] => none
  | char :: unread => some (char, { c with unread, offset := c.offset + 1 })

structure Step (c : Cursor) (char : Char) (next : Cursor) : Prop where
  unread_eq : c.unread = char :: next.unread
  offset_eq : next.offset = c.offset + 1
  opened_eq : next.opened = c.opened

/-- No more is unread than at the other cursor, and as many groups are open. -/
structure Follows (c origin : Cursor) : Prop where
  length_le : c.unread.length ≤ origin.unread.length
  opened_eq : c.opened = origin.opened

variable {a b c next : Cursor} {char : Char}

theorem Follows.refl (c : Cursor) : c.Follows c := ⟨Nat.le_refl _, rfl⟩

theorem Follows.trans (h : a.Follows b) (h' : b.Follows c) : a.Follows c :=
  ⟨Nat.le_trans h.length_le h'.length_le, h.opened_eq.trans h'.opened_eq⟩

theorem next?_eq_none (h : c.next? = none) : c.unread = [] := by
  unfold next? at h
  split at h
  · next hunread => exact hunread
  · simp at h

theorem step_of_next? (h : c.next? = some (char, next)) : c.Step char next := by
  unfold next? at h
  split at h
  · simp at h
  · next hunread =>
      cases h
      exact ⟨hunread, rfl, rfl⟩

theorem Step.length_eq (h : c.Step char next) : c.unread.length = next.unread.length + 1 := by
  rw [h.unread_eq, List.length_cons]

theorem Step.follows (h : c.Step char next) : next.Follows c :=
  ⟨Nat.le_of_lt (Nat.lt_of_succ_le (Nat.le_of_eq h.length_eq.symm)), h.opened_eq⟩

end Cursor

/-- Why a sequence ends. -/
inductive Stop where
  | textEnd
  | bar
  | closing

/-- What remains of a sequence, why it ended, and the cursor behind it. -/
structure SequenceEnd (origin : Cursor) where
  remains : Option Expr
  stop : Stop
  cursor : Cursor
  follows : cursor.Follows origin
  length_lt : stop ≠ .textEnd → cursor.unread.length < origin.unread.length

/-- What remains of a group, and the cursor behind its closing bracket. -/
structure GroupEnd (origin : Cursor) (α : Type) where
  remains : α
  cursor : Cursor
  follows : cursor.Follows origin
  length_lt : cursor.unread.length < origin.unread.length

/-- The items, latest first, with a pending literal among them. -/
def withLiteral : (literal : List Char) → (items : List Expr) → List Expr
  | [], items => items
  | c :: cs, items => .term (.ofList (c :: cs).reverse) :: items

/-- What remains of the branches of a group; an alternation of none is refused. -/
def remainingGroup : List Expr → Except BuildError (Option Expr)
  | [] => .ok none
  | [branch] => .ok (some branch)
  | branches => (Expr.alternation branches).map some

mutual
/-- Reads the rest of a sequence, of which there are some items and a pending literal. -/
def readSequence (limit : Nat) {origin : Cursor} (c : Cursor) (h : c.Follows origin)
    (items : List Expr) (literal : List Char) : Except BuildError (SequenceEnd origin) :=
  let items' := withLiteral literal items
  let remains := collapseSequence items'.reverse
  match hnext : c.next? with
  | none => .ok ⟨remains, .textEnd, c, h, by simp⟩
  | some (char, next) =>
      have hstep := Cursor.step_of_next? hnext
      have hlength := hstep.length_eq
      have hle := h.length_le
      have hfollows := hstep.follows.trans h
      if char = '<' then
        let openedAt := next.offset - 1
        if limit ≤ next.opened then .error (.markup (.tooDeep openedAt limit))
        else
          match readGroup limit openedAt next with
          | .error error => .error error
          | .ok group =>
              have hgroup := group.length_lt
              readSequence limit group.cursor (group.follows.trans hfollows)
                (group.remains.toList ++ items') []
      else if char = '|' then .ok ⟨remains, .bar, next, hfollows, fun _ => by omega⟩
      else if char = '>' then .ok ⟨remains, .closing, next, hfollows, fun _ => by omega⟩
      else readSequence limit next hfollows items (char :: literal)
termination_by 3 * c.unread.length

/-- Reads the rest of a group, of which there are some branches, latest first. -/
def readBranches (limit openedAt : Nat) {origin : Cursor} (c : Cursor) (h : c.Follows origin)
    (branches : List Expr) : Except BuildError (GroupEnd origin (List Expr)) :=
  match readSequence limit c (.refl c) [] [] with
  | .error error => .error error
  | .ok ⟨remains, .bar, next, hnext, hlt⟩ =>
      have hbar := hlt (by simp)
      readBranches limit openedAt next (hnext.trans h) (remains.toList ++ branches)
  | .ok ⟨remains, .closing, next, hnext, hlt⟩ =>
      .ok ⟨(remains.toList ++ branches).reverse, next, hnext.trans h,
        Nat.lt_of_lt_of_le (hlt (by simp)) h.length_le⟩
  | .ok ⟨_, .textEnd, _, _, _⟩ => .error (.markup (.unterminated openedAt))
termination_by 3 * c.unread.length + 1

/-- Reads the group whose opening bracket is right before the cursor. -/
def readGroup (limit openedAt : Nat) (c : Cursor) :
    Except BuildError (GroupEnd c (Option Expr)) :=
  match readBranches limit openedAt { c with opened := c.opened + 1 } (.refl _) [] with
  | .error error => .error error
  | .ok ⟨branches, next, hnext, hlt⟩ =>
      (remainingGroup branches).map fun remains =>
        ⟨remains, { next with opened := next.opened - 1 },
          ⟨hnext.length_le, by simp [hnext.opened_eq]⟩, hlt⟩
termination_by 3 * c.unread.length + 2
end

def descend (limit : Nat) (text : List Char) : Except BuildError Expr :=
  (readSequence limit ⟨text, 0, 0⟩ (.refl _) [] []).bind fun ended =>
    let last := ended.cursor.offset - 1
    match ended.stop with
    | .textEnd => .ok (ended.remains.getD .empty)
    | .bar => .error (.markup (.trailingInput last '|'))
    | .closing => .error (.markup (.trailingInput last '>'))

end ChoiceGrammar.Markup
