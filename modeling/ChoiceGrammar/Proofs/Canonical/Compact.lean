import ChoiceGrammar.Proofs.Canonical.Legible
import ChoiceGrammar.Proofs.Expansion.Height
import ChoiceGrammar.Proofs.Expansion.Outputs

/-!
# Compact trees

Collapsing leaves no empty part in a tree, no blank literal, and no sequence or alternation of fewer
than two parts. The reader keeps such trees only: where so many more groups may still be opened, an
item is at most twice as high, and a sequence of items one higher. For a group adds a sequence and
an alternation at most, and behind the last level a sequence is a single literal.
-/

namespace ChoiceGrammar

open Markup

namespace Expr

/-- The tree itself, whatever its parts, is nothing that collapses: a literal with some text and no
delimiter, or two parts or more. -/
def Collapsed : Expr → Prop
  | term text => text ≠ "" ∧ ∀ c ∈ text.toList, isDelimiter c = false
  | empty => False
  | seq items => 2 ≤ items.length
  | alt first rest => 2 ≤ (first :: rest).length

theorem isPart_seq_iff {part : Expr} {items : List Expr} :
    IsPart part (seq items) ↔ part = seq items ∨ ∃ item ∈ items, IsPart part item := by
  constructor
  · intro h
    cases h with
    | refl => exact .inl rfl
    | item hi h => exact .inr ⟨_, hi, h⟩
  · rintro (rfl | ⟨item, hi, h⟩)
    · exact .refl _
    · exact h.item hi

theorem isPart_alt_iff {part first : Expr} {rest : List Expr} :
    IsPart part (alt first rest) ↔
      part = alt first rest ∨ ∃ branch ∈ first :: rest, IsPart part branch := by
  constructor
  · intro h
    cases h with
    | refl => exact .inl rfl
    | branch hb h => exact .inr ⟨_, hb, h⟩
  · rintro (rfl | ⟨branch, hb, h⟩)
    · exact .refl _
    · exact h.branch hb

theorem IsPart.trans {part whole e : Expr} (h : IsPart part whole) (h' : IsPart whole e) :
    IsPart part e := by
  induction h' with
  | refl => exact h
  | item hi _ ih => exact ih.item hi
  | branch hb _ ih => exact ih.branch hb

theorem encode_ne_empty_of_collapsed {e : Expr} (h : ∀ part, IsPart part e → part.Collapsed) :
    e.encode ≠ "" := by
  rw [encode_ne_empty]
  induction e using induct with
  | term text =>
      obtain ⟨htext, -⟩ := h _ (.refl _)
      intro hnil
      exact htext (String.toList_eq_nil_iff.mp hnil)
  | empty => exact (h _ (.refl _)).elim
  | seq items ih =>
      have hlength : 2 ≤ items.length := h _ (.refl _)
      cases items with
      | nil => simp at hlength
      | cons first rest =>
          have hfirst := ih first (by simp) fun part hpart => h part (hpart.item (by simp))
          simp [chars, charsConcat, hfirst]
  | alt first rest _ => simp [chars]

end Expr

namespace Markup

/-- What is known of a tree that is left of some markup. -/
structure Compact (height : Nat) (e : Expr) : Prop where
  collapsed : ∀ part, Expr.IsPart part e → part.Collapsed
  height_le : e.height ≤ height

variable {height : Nat} {es : List Expr} {e : Expr}

theorem Compact.mono {higher : Nat} (hle : height ≤ higher) (h : Compact height e) :
    Compact higher e :=
  ⟨h.collapsed, Nat.le_trans h.height_le hle⟩

theorem compact_term {text : String} (hne : text ≠ "")
    (htext : ∀ c ∈ text.toList, isDelimiter c = false) (hheight : 1 ≤ height) :
    Compact height (.term text) := by
  refine ⟨?_, hheight⟩
  intro part hpart
  cases hpart
  exact ⟨hne, htext⟩

theorem compact_seq (hlength : 2 ≤ es.length) (h : ∀ e ∈ es, Compact height e) :
    Compact (height + 1) (.seq es) := by
  refine ⟨?_, ?_⟩
  · intro part hpart
    rcases Expr.isPart_seq_iff.mp hpart with rfl | ⟨item, hi, hpart⟩
    · exact hlength
    · exact (h item hi).collapsed part hpart
  · apply Nat.succ_le_succ
    exact Expr.heightMax_le_iff.mpr fun e he => (h e he).height_le

theorem compact_alt {first : Expr} {rest : List Expr} (hlength : 2 ≤ (first :: rest).length)
    (h : ∀ e ∈ first :: rest, Compact height e) : Compact (height + 1) (.alt first rest) := by
  refine ⟨?_, ?_⟩
  · intro part hpart
    rcases Expr.isPart_alt_iff.mp hpart with rfl | ⟨branch, hb, hpart⟩
    · exact hlength
    · exact (h branch hb).collapsed part hpart
  · have hmax : Expr.heightMax (first :: rest) ≤ height :=
      Expr.heightMax_le_iff.mpr fun e he => (h e he).height_le
    exact Nat.succ_le_succ hmax

theorem compact_collapseSequence (h : ∀ e ∈ es, Compact height e)
    (he : collapseSequence es = some e) : Compact (height + 1) e := by
  rcases es with _ | ⟨e₁, _ | ⟨e₂, es⟩⟩
  · simp [collapseSequence] at he
  · obtain rfl : e₁ = e := Option.some.inj he
    exact (h e₁ (by simp)).mono (Nat.le_succ height)
  · obtain rfl : .seq (e₁ :: e₂ :: es) = e := Option.some.inj he
    exact compact_seq (by simp) h

theorem compact_collapseGroup (h : ∀ e ∈ es, Compact height e)
    (he : collapseGroup es = some e) : Compact (height + 1) e := by
  rcases es with _ | ⟨e₁, _ | ⟨e₂, es⟩⟩
  · simp [collapseGroup] at he
  · obtain rfl : e₁ = e := Option.some.inj he
    exact (h e₁ (by simp)).mono (Nat.le_succ height)
  · obtain rfl : .alt e₁ (e₂ :: es) = e := Option.some.inj he
    exact compact_alt (by simp) h

/-- Each open group keeps compact trees. Inside the innermost so many more may be opened. -/
def StackCompact : (room : Nat) → List OpenGroup → Prop
  | _, [] => True
  | room, g :: stack =>
      (∀ e ∈ g.branches, Compact (2 * room + 1) e) ∧
        (∀ e ∈ g.before, Compact (2 * (room + 1)) e) ∧ StackCompact (room + 1) stack

namespace Progress

/-- All that the reader keeps is compact, and its literal has no delimiter. -/
structure Keeps (limit room : Nat) (p : Progress) : Prop where
  room_eq : p.stack.length + room = limit
  stack : StackCompact room p.stack
  items : ∀ e ∈ p.items, Compact (2 * room) e
  literal : ∀ c ∈ p.literal, isDelimiter c = false

variable {limit room : Nat} {p q : Progress} {c : Char}

theorem keeps_start (limit : Nat) : Progress.start.Keeps limit limit :=
  ⟨Nat.zero_add limit, trivial, by simp [Progress.start], by simp [Progress.start]⟩

theorem Keeps.pending {cs : List Char} (h : p.Keeps limit room)
    (hliteral : p.literal = c :: cs) (hheight : 1 ≤ height) :
    Compact height (.term (.ofList (c :: cs).reverse)) := by
  refine compact_term (by simp) ?_ hheight
  intro d hd
  rw [String.toList_ofList, List.mem_reverse, ← hliteral] at hd
  exact h.literal d hd

theorem Keeps.flushed (h : p.Keeps limit room) (hroom : 0 < room) :
    ∀ e ∈ p.flushed, Compact (2 * room) e := by
  intro e he
  unfold Progress.flushed at he
  split at he
  · exact h.items e he
  · next c cs hliteral =>
      rcases List.mem_cons.mp he with rfl | he
      · exact h.pending hliteral (by omega)
      · exact h.items e he

theorem Keeps.sequence (h : p.Keeps limit room) :
    ∀ e ∈ p.sequence, Compact (2 * room + 1) e := by
  intro e he
  by_cases hroom : 0 < room
  · refine compact_collapseSequence ?_ he
    intro item hitem
    exact h.flushed hroom item (List.mem_reverse.mp hitem)
  · have hitems : p.items = [] := by
      apply List.eq_nil_iff_forall_not_mem.mpr
      intro item hitem
      have hheight := (h.items item hitem).height_le
      rw [Expr.height_eq] at hheight
      omega
    cases hliteral : p.literal with
    | nil => simp [Progress.sequence, Progress.flushed, hliteral, hitems, collapseSequence] at he
    | cons c cs =>
        obtain rfl : .term (.ofList (c :: cs).reverse) = e := by
          simpa [Progress.sequence, Progress.flushed, hliteral, hitems, collapseSequence] using he
        exact h.pending hliteral (by omega)

theorem Keeps.step (h : p.Keeps limit room) (hstep : p.step limit c = .ok q) :
    ∃ room', q.Keeps limit room' := by
  obtain ⟨hroom, hstack, hitems, hliteral⟩ := h
  have hsequence := Keeps.sequence ⟨hroom, hstack, hitems, hliteral⟩
  cases step_cases hstep with
  | opening hlt =>
      obtain ⟨inner, rfl⟩ : ∃ inner, room = inner + 1 := ⟨room - 1, by omega⟩
      have hflushed := Keeps.flushed ⟨hroom, hstack, hitems, hliteral⟩ (Nat.succ_pos inner)
      refine ⟨inner, ?_, ⟨by simp, hflushed, hstack⟩, by simp, by simp⟩
      rw [List.length_cons]
      omega
  | bar hs =>
      rw [hs] at hroom hstack
      obtain ⟨hbranches, hbefore, hrest⟩ := hstack
      refine ⟨room, hroom, ⟨?_, hbefore, hrest⟩, by simp, by simp⟩
      intro e he
      rcases List.mem_append.mp he with he | he
      · exact hsequence e (Option.mem_toList.mp he)
      · exact hbranches e he
  | closing hs =>
      rw [hs] at hroom hstack
      obtain ⟨hbranches, hbefore, hrest⟩ := hstack
      refine ⟨room + 1, ?_, hrest, ?_, by simp⟩
      · rw [List.length_cons, Nat.add_right_comm] at hroom
        exact hroom
      intro e he
      rcases List.mem_append.mp he with he | he
      · refine compact_collapseGroup ?_ (Option.mem_toList.mp he)
        intro branch hbranch
        rcases List.mem_append.mp (List.mem_reverse.mp hbranch) with hlast | hearlier
        · exact hsequence branch (Option.mem_toList.mp hlast)
        · exact hbranches branch hearlier
      · exact hbefore e he
  | literal hc => exact ⟨room, hroom, hstack, hitems, List.forall_mem_cons.mpr ⟨hc, hliteral⟩⟩

theorem Keeps.run {text : List Char} (h : p.Keeps limit room) (hrun : p.run limit text = .ok e) :
    e = .empty ∨ Compact (2 * limit + 1) e := by
  induction text generalizing p room with
  | nil =>
      simp only [Progress.run, Progress.finish] at hrun
      split at hrun
      · next hs =>
          have hroom := h.room_eq
          rw [hs, List.length_nil, Nat.zero_add] at hroom
          subst hroom
          cases hsequence : p.sequence with
          | none => simp_all
          | some tree =>
              obtain rfl : tree = e := by simpa [hsequence] using hrun
              exact .inr (h.sequence tree hsequence)
      · simp at hrun
  | cons c cs ih =>
      simp only [Progress.run] at hrun
      split at hrun
      · next q hq =>
          obtain ⟨room', hq'⟩ := h.step hq
          exact ih hq' hrun
      · simp at hrun

end Progress

theorem compact_of_read {limit : Nat} {text : List Char} (h : read limit text = .ok e) :
    e = .empty ∨ Compact (2 * limit + 1) e :=
  (Progress.keeps_start limit).run h

end Markup

namespace Expr

theorem height_le_of_parseChars {limit : Nat} {text : List Char} {e : Expr}
    (h : parseChars limit text = .ok e) : e.height ≤ 2 * limit + 1 := by
  rcases compact_of_read h with rfl | hcompact
  · exact Nat.succ_le_succ (Nat.zero_le _)
  · exact hcompact.height_le

/-- Each line is a branch, and the alternation between them is one level more. -/
theorem height_le_of_parse {config : CorpusConfig} {text : String} {e : Expr}
    (h : Corpus.parse config text = .ok e) : e.height ≤ 2 * config.maxDepth.toNat + 2 := by
  obtain ⟨first, rest, rfl, hbranches⟩ := Corpus.parse_eq_alt h
  have hmax : heightMax (first :: rest) ≤ 2 * config.maxDepth.toNat + 1 := by
    apply heightMax_le_iff.mpr
    intro branch hbranch
    obtain ⟨line, -, hline⟩ := exists_mem_of_forall₂ hbranches hbranch
    exact height_le_of_parseChars hline
  exact Nat.succ_le_succ hmax

/-- A parsed tree is empty, or nothing in it is empty or could be collapsed, and each of its parts
has some text. Its alternations nest within the limit, and it is at most twice as high as the limit
and one more, however long its text. So deep the calls of an expansion nest, and those of the other
recursions over the tree. The tree of a corpus is one higher at most. -/
theorem parsed_shape_and_height :
    (∀ limit text e, parseWithin limit text = .ok e →
        (e = .empty ∨ ∀ part, IsPart part e → part.Collapsed ∧ part.encode ≠ "") ∧
          e.nesting ≤ limit ∧ e.height ≤ 2 * limit + 1 ∧ CallsWithin (2 * limit + 1) e) ∧
      ∀ config text e, Corpus.parse config text = .ok e →
        e.height ≤ 2 * config.maxDepth.toNat + 2 := by
  refine ⟨?_, fun config text e h => height_le_of_parse h⟩
  intro limit text e h
  have hheight := height_le_of_parseChars h
  refine ⟨?_, (legible_of_parseChars h).2, hheight, callsWithin_of_height_le hheight⟩
  rcases compact_of_read h with hempty | hcompact
  · exact .inl hempty
  · right
    intro part hpart
    refine ⟨hcompact.collapsed part hpart, encode_ne_empty_of_collapsed ?_⟩
    intro inner hinner
    exact hcompact.collapsed inner (hinner.trans hpart)

/-- The branch with nothing in it is gone, and what is left of its group is a sequence inside a
sequence. -/
theorem parsed_shape_and_height_unwrapped :
    let e := seq [term "a", seq [term "b", alt (term "c") [term "d"]], term "e"]
    parseWithin 2 "a<b<c|d>|<>>e" = .ok e ∧
      (∀ part, IsPart part e → part.Collapsed ∧ part.encode ≠ "") ∧ e.nesting ≤ 2 ∧
      e.height ≤ 5 ∧ CallsWithin 5 e ∧
      Corpus.parse ⟨'#', false, 2⟩ "a<b<c|d>|<>>e" = .ok (alt e []) ∧ (alt e []).height ≤ 6 := by
  intro e
  have hparse : parseWithin 2 "a<b<c|d>|<>>e" = .ok e := by decide
  have hcorpus : Corpus.parse ⟨'#', false, 2⟩ "a<b<c|d>|<>>e" = .ok (alt e []) := by decide
  obtain ⟨hexpression, hlines⟩ := parsed_shape_and_height
  obtain ⟨hshape, hnesting, hheight, hcalls⟩ := hexpression 2 _ e hparse
  have hne : e ≠ .empty := by decide
  exact ⟨hparse, hshape.resolve_left hne, hnesting, hheight, hcalls, hcorpus, hlines _ _ _ hcorpus⟩

/-- Two levels can be five trees high. -/
example : (parseWithin 2 "<a|b<c|d>>e").map height = .ok 5 := by decide

end Expr

end ChoiceGrammar
