import ChoiceGrammar.Proofs.Canonical.Striking
import ChoiceGrammar.Proofs.Counting.Lengths
import ChoiceGrammar.Proofs.Expansion.Walk

/-!
# Texts side by side

Two texts side by side have the items of both, except that a run at the end of the first joins a run
at the start of the second. The tree of the whole may differ in its shape from the trees of the two
texts: literals are joined, and a sequence is spliced in and not nested. It is alike to the sequence
of the two.
-/

namespace ChoiceGrammar

namespace Markup

/-- The items of two sequences side by side. -/
def joinItems : List Item → List Item → List Item
  | [], ys => ys
  | .run text :: xs, ys => pushLiteral text (joinItems xs ys)
  | .group first rest :: xs, ys => .group first rest :: joinItems xs ys

theorem sequenceChars_joinItems (xs ys : List Item) :
    sequenceChars (joinItems xs ys) = sequenceChars xs ++ sequenceChars ys := by
  induction xs with
  | nil => rfl
  | cons x xs ih =>
      rw [sequenceChars, List.append_assoc, ← ih]
      cases x with
      | run text => exact sequenceChars_pushLiteral text _
      | group first rest => rfl

theorem sequenceNesting_joinItems (xs ys : List Item) :
    sequenceNesting (joinItems xs ys) = max (sequenceNesting xs) (sequenceNesting ys) := by
  induction xs with
  | nil => exact (Nat.zero_max _).symm
  | cons x xs ih =>
      rw [sequenceNesting, Nat.max_assoc, ← ih]
      cases x with
      | run text =>
          rw [joinItems, sequenceNesting_pushLiteral]
          exact (Nat.zero_max _).symm
      | group first rest => rfl

theorem sequenceWellFormed_joinItems {xs ys : List Item} (hx : SequenceWellFormed xs)
    (hy : SequenceWellFormed ys) : SequenceWellFormed (joinItems xs ys) := by
  induction xs with
  | nil => exact hy
  | cons x xs ih =>
      obtain ⟨hitem, -, hxs⟩ := hx
      cases x with
      | run text => exact sequenceWellFormed_pushLiteral hitem.2 (ih hxs)
      | group first rest => exact ⟨hitem, trivial, ih hxs⟩

theorem alike_joinItems (xs ys : List Item) :
    Expr.Alike (survivingItems (joinItems xs ys)) (survivingItems xs ++ survivingItems ys) := by
  induction xs with
  | nil => exact .refl _
  | cons x xs ih =>
      rw [survivingItems, List.append_assoc]
      cases x with
      | run text => exact (alike_pushLiteral text _).trans (ih.cons (.term text))
      | group first rest => exact (Expr.Alike.refl _).append ih

theorem Derives.join {xs ys : List Item} {s t : List Char} (hx : Derives xs s)
    (hy : Derives ys t) : Derives (joinItems xs ys) (s ++ t) := by
  refine ⟨sequenceWellFormed_joinItems hx.wellFormed hy.wellFormed, ?_⟩
  rw [sequenceChars_joinItems, hx.chars_eq, hy.chars_eq]

/-- Texts that are read within a limit are read side by side, as a tree alike to the two. -/
theorem read_append {limit : Nat} {s t : List Char} {x y : Expr} (hs : read limit s = .ok x)
    (ht : read limit t = .ok y) :
    ∃ z, read limit (s ++ t) = .ok z ∧ Expr.Alike [z] [x, y] := by
  obtain ⟨xs, hx, hxn, rfl⟩ := derives_of_read hs
  obtain ⟨ys, hy, hyn, rfl⟩ := derives_of_read ht
  have hnesting : sequenceNesting (joinItems xs ys) ≤ limit := by
    rw [sequenceNesting_joinItems]
    exact Nat.max_le.mpr ⟨hxn, hyn⟩
  have hparts : Expr.Alike ([collapse xs] ++ [collapse ys])
      (survivingItems xs ++ survivingItems ys) :=
    (alike_collapse xs).append (alike_collapse ys)
  have hwhole : Expr.Alike [collapse (joinItems xs ys)] (survivingItems xs ++ survivingItems ys) :=
    (alike_collapse _).trans (alike_joinItems xs ys)
  exact ⟨_, read_of_derives (hx.join hy) hnesting, hwhole.trans hparts.symm⟩

end Markup

namespace Expr

theorem longest_le_of_parseWithin {limit : Nat} {text : String} {e : Expr}
    (h : parseWithin limit text = .ok e) : e.longest ≤ text.utf8ByteSize := by
  obtain ⟨items, hd, -, rfl⟩ := Markup.derives_of_read h
  have hstrikes := Markup.strikes_collapse items
  rw [hd.chars_eq] at hstrikes
  exact longest_le_of_sublist hstrikes.sublist

/-- The tree of the whole is expanded as the one, and then as the other on the words left unread. -/
theorem expandFrom_of_alike {x y z : Expr} (h : Alike [z] [x, y]) (source : WordSource)
    (position : Nat) : z.expandFrom source position =
      (x.expandFrom source position).bind fun out =>
        (y.expandFrom source out.position).map fun next =>
          ⟨out.text ++ next.text, next.position⟩ := by
  have hsingle : Alike [z] [seq [x, y]] := h.trans (Alike.flatten [x, y] []).symm
  obtain ⟨-, -, -, hexpand⟩ := alike_singleton.mp hsingle
  simp only [← expandOnto_eq_expandFrom]
  rw [expandFrom, hexpand, expandOnto, expandFrom, expandAll]
  cases x.expandOnto source ⟨"", position⟩ with
  | none => rfl
  | some out =>
      change expandAll source [y] out = y.expandOnto source out
      rw [expandAll]
      cases y.expandOnto source out <;> rfl

/-- Texts accepted at a limit are accepted side by side. The canonical texts stand side by side
then, the counts are multiplied as far as 64 bits go, and the longest outputs are added. The whole
is expanded as the first, and then as the second on the words that are left unread. -/
theorem parse_side_by_side {limit : Nat} {a b : String} {x y : Expr}
    (ha : parseWithin limit a = .ok x) (hb : parseWithin limit b = .ok y)
    (short : a.utf8ByteSize + b.utf8ByteSize < 2 ^ 64) :
    ∃ z, parseWithin limit (a ++ b) = .ok z ∧ z.encode = x.encode ++ y.encode ∧
      z.count.toNat = min (2 ^ 64 - 1) (x.count.toNat * y.count.toNat) ∧
      z.maxLength.toNat = x.maxLength.toNat + y.maxLength.toNat ∧
      ∀ source position, z.expandFrom source position =
        (x.expandFrom source position).bind fun out =>
          (y.expandFrom source out.position).map fun next =>
            ⟨out.text ++ next.text, next.position⟩ := by
  obtain ⟨z, hz, halike⟩ := Markup.read_append ha hb
  refine ⟨z, ?_, ?_, ?_, ?_, fun source position => expandFrom_of_alike halike source position⟩
  · rw [parseWithin, String.toList_append]
    exact hz
  · have hchars := halike.chars
    simp only [charsConcat, List.append_nil] at hchars
    rw [encode, hchars, String.ofList_append]
    rfl
  · have hcount := halike.count
    simp only [countProduct_singleton] at hcount
    rw [hcount, countProduct, countProduct_singleton, saturate_toNat, Nat.min_comm]
  · have hx := longest_le_of_parseWithin ha
    have hy := longest_le_of_parseWithin hb
    have hxm := maxLength_toNat x (by omega)
    have hym := maxLength_toNat y (by omega)
    have hlength := halike.length
    simp only [lengthSum, UInt64.add_zero] at hlength
    rw [hlength, UInt64.toNat_add, hxm, hym]
    exact Nat.mod_eq_of_lt (by omega)

/-- The literals at the seam are joined, the groups with one branch are gone, and the two choices
are made one behind the other. -/
theorem parse_side_by_side_seam :
    let x := seq [term "x", alt (term "a") [term "b"], term "y"]
    let y := seq [term "z", term "c", alt (term "d") [term "e"]]
    let z := seq [term "x", alt (term "a") [term "b"], term "yz", term "c",
      alt (term "d") [term "e"]]
    parseWithin 1 "x<a|b>y" = .ok x ∧ parseWithin 1 "z<|c><|d|e>" = .ok y ∧
      parseWithin 1 "x<a|b>yz<|c><|d|e>" = .ok z ∧ z.encode = x.encode ++ y.encode ∧
      z.count.toNat = min (2 ^ 64 - 1) (x.count.toNat * y.count.toNat) ∧
      z.maxLength.toNat = x.maxLength.toNat + y.maxLength.toNat ∧
      ∀ source position, z.expandFrom source position =
        (x.expandFrom source position).bind fun out =>
          (y.expandFrom source out.position).map fun next =>
            ⟨out.text ++ next.text, next.position⟩ := by
  intro x y z
  have ha : parseWithin 1 "x<a|b>y" = .ok x := by decide
  have hb : parseWithin 1 "z<|c><|d|e>" = .ok y := by decide
  have hab : parseWithin 1 "x<a|b>yz<|c><|d|e>" = .ok z := by decide
  obtain ⟨whole, hwhole, hrest⟩ := parse_side_by_side ha hb (by decide)
  obtain rfl : whole = z := Except.ok.inj (hwhole.symm.trans hab)
  exact ⟨ha, hb, hab, hrest⟩

end Expr

end ChoiceGrammar
