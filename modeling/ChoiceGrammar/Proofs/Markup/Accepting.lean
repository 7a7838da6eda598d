import ChoiceGrammar.Proofs.Markup.Reading

/-!
# Accepted texts

An accepted text is split into what each open group still needs, character by character from the
end of the text to its start. With no group open that is a derivation of the whole text.
-/

namespace ChoiceGrammar.Markup

/-- Text that closes so many open groups and the text around them, from the end of a sequence in
the innermost one on. -/
def Ends (limit : Nat) : (opened : Nat) → List Char → Prop
  | 0, text => text = []
  | opened + 1, text => ∃ branches items rest,
      text = barredChars branches ++ (sequenceChars items ++ rest) ∧
      BranchesWellFormed branches ∧ opened + 1 + branchesNesting branches ≤ limit ∧
      SequenceWellFormed items ∧ opened + sequenceNesting items ≤ limit ∧ Ends limit opened rest

/-- Text that goes on with the sequence at hand and then closes so many open groups. -/
def Closes (limit opened : Nat) (text : List Char) : Prop :=
  ∃ items rest, text = sequenceChars items ++ rest ∧ SequenceWellFormed items ∧
    opened + sequenceNesting items ≤ limit ∧ Ends limit opened rest

theorem Closes.of_ends {limit opened : Nat} {text : List Char} (hle : opened ≤ limit)
    (h : Ends limit opened text) : Closes limit opened text :=
  ⟨[], text, rfl, trivial, hle, h⟩

theorem Closes.literal {limit opened : Nat} {text : List Char} {c : Char}
    (hc : isDelimiter c = false) (h : Closes limit opened text) :
    Closes limit opened (c :: text) := by
  obtain ⟨items, rest, rfl, hi, hn, he⟩ := h
  refine ⟨pushLiteral (.singleton c) items, rest, ?_, ?_, ?_, he⟩
  · simp [sequenceChars_pushLiteral]
  · exact sequenceWellFormed_pushLiteral (by simpa using hc) hi
  · rwa [sequenceNesting_pushLiteral]

theorem Closes.opening {limit opened : Nat} {text : List Char}
    (h : Closes limit (opened + 1) text) : Closes limit opened ('<' :: text) := by
  obtain ⟨first, _, rfl, hf, hfn, branches, items, rest, rfl, hb, hbn, hi, hn, he⟩ := h
  refine ⟨.group first branches :: items, rest, ?_, ⟨⟨hf, hb⟩, trivial, hi⟩, ?_, he⟩
  · simp [sequenceChars, Item.chars]
  · simp only [sequenceNesting, Item.nesting]
    omega

theorem Closes.bar {limit opened : Nat} {text : List Char} (hle : opened + 1 ≤ limit)
    (h : Closes limit (opened + 1) text) : Closes limit (opened + 1) ('|' :: text) := by
  obtain ⟨branch, _, rfl, hb, hbn, branches, items, rest, rfl, hbs, hbsn, hi, hn, he⟩ := h
  refine .of_ends hle ⟨branch :: branches, items, rest, ?_, ⟨hb, hbs⟩, ?_, hi, hn, he⟩
  · simp [barredChars]
  · simp only [branchesNesting]
    omega

theorem Closes.closing {limit opened : Nat} {text : List Char} (hle : opened + 1 ≤ limit)
    (h : Closes limit opened text) : Closes limit (opened + 1) ('>' :: text) := by
  obtain ⟨items, rest, rfl, hi, hn, he⟩ := h
  exact .of_ends hle ⟨[], items, rest, rfl, trivial, hle, hi, hn, he⟩

theorem closes_of_run {limit : Nat} {p : Progress} {text : List Char} {e : Expr}
    (hle : p.stack.length ≤ limit) (h : p.run limit text = .ok e) :
    Closes limit p.stack.length text := by
  -- the progress changes with every character; what is left to read closes its open groups
  induction text generalizing p with
  | nil =>
      simp only [Progress.run, Progress.finish] at h
      split at h
      · next hs =>
          rw [hs]
          exact .of_ends (Nat.zero_le limit) rfl
      · simp at h
  | cons c cs ih =>
      simp only [Progress.run] at h
      split at h
      · next q hq =>
          cases Progress.step_cases hq with
          | opening hlt =>
              refine Closes.opening (ih ?_ h)
              exact hlt
          | bar hs =>
              rw [hs, List.length_cons] at hle ⊢
              refine .bar hle (ih ?_ h)
              exact hle
          | closing hs =>
              rw [hs, List.length_cons] at hle ⊢
              exact .closing hle (ih (Nat.le_of_succ_le hle) h)
          | literal hc =>
              refine (ih ?_ h).literal hc
              exact hle
      · simp at h

/-- What is read has a derivation within the limit. -/
theorem derives_of_read {limit : Nat} {text : List Char} {e : Expr}
    (h : read limit text = .ok e) :
    ∃ items, Derives items text ∧ sequenceNesting items ≤ limit ∧ collapse items = e := by
  obtain ⟨items, rest, htext, hw, hn, hrest⟩ := closes_of_run (Nat.zero_le limit) h
  have hnil : rest = [] := hrest
  have hd : Derives items text := ⟨hw, by rw [htext, hnil, List.append_nil]⟩
  have hn' : sequenceNesting items ≤ limit := by
    simpa only [Progress.start, List.length_nil, Nat.zero_add] using hn
  refine ⟨items, hd, hn', ?_⟩
  have hread := read_of_derives hd hn'
  rw [h] at hread
  injection hread with he
  exact he.symm

end ChoiceGrammar.Markup
