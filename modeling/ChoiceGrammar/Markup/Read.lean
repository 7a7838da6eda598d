import ChoiceGrammar.Markup.Basic

/-!
# Reading markup

The reader goes through the text once, from left to right, with the groups that are still open on
a stack, and builds the expression on its way: a literal becomes a term where it ends, a sequence
is collapsed at the bar or bracket after it, a group at its closing bracket. The reader stops at the
first character that cannot be placed: a bar or a closing bracket outside every group, or an opening
bracket past the nesting limit. Offsets count characters from zero.
-/

namespace ChoiceGrammar.Markup

/-- Why a text is no markup. -/
inductive Fault where
  /-- A bar or closing bracket outside every group. -/
  | trailingInput (position : Nat) (found : Char)
  /-- The group opened at `position` is never closed. -/
  | unterminated (position : Nat)
  /-- The group opened at `position` nests deeper than `limit` levels. -/
  | tooDeep (position limit : Nat)
  deriving DecidableEq, Repr

/-- An open group: where it was opened, and latest first what remains of the items before it and of
its finished branches. -/
structure OpenGroup where
  openedAt : Nat
  before : List Expr
  branches : List Expr

/-- What has been read of a text, latest first: the open groups, what remains of the items of the
sequence at hand, and the literal that is pending. -/
structure Progress where
  position : Nat
  stack : List OpenGroup
  items : List Expr
  literal : List Char

def Progress.start : Progress := ⟨0, [], [], []⟩

namespace Progress

/-- The items read, latest first, the pending literal among them. -/
def flushed (p : Progress) : List Expr :=
  match p.literal with
  | [] => p.items
  | c :: cs => .term (.ofList (c :: cs).reverse) :: p.items

/-- What remains of the sequence at hand if it ends here. -/
def sequence (p : Progress) : Option Expr := collapseSequence p.flushed.reverse

def step (limit : Nat) (p : Progress) (c : Char) : Except Fault Progress :=
  match c with
  | '<' =>
      if limit ≤ p.stack.length then
        .error (.tooDeep p.position limit)
      else
        .ok ⟨p.position + 1, ⟨p.position, p.flushed, []⟩ :: p.stack, [], []⟩
  | '|' =>
      match p.stack with
      | [] => .error (.trailingInput p.position c)
      | g :: stack =>
          let branches := p.sequence.toList ++ g.branches
          .ok ⟨p.position + 1, { g with branches } :: stack, [], []⟩
  | '>' =>
      match p.stack with
      | [] => .error (.trailingInput p.position c)
      | g :: stack =>
          let group := collapseGroup (p.sequence.toList ++ g.branches).reverse
          .ok ⟨p.position + 1, stack, group.toList ++ g.before, []⟩
  | c => .ok ⟨p.position + 1, p.stack, p.items, c :: p.literal⟩

/-- The expression of a text that ends here. -/
def finish (p : Progress) : Except Fault Expr :=
  match p.stack with
  | [] => .ok (p.sequence.getD .empty)
  | g :: _ => .error (.unterminated g.openedAt)

def run (limit : Nat) : Progress → List Char → Except Fault Expr
  | p, [] => p.finish
  | p, c :: cs =>
      match p.step limit c with
      | .ok q => q.run limit cs
      | .error fault => .error fault

end Progress

/-- Reads a text whose groups nest at most `limit` levels deep. -/
def read (limit : Nat) (text : List Char) : Except Fault Expr :=
  Progress.start.run limit text

end ChoiceGrammar.Markup
