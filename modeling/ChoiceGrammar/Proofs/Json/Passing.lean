import ChoiceGrammar.Json.Skip
import ChoiceGrammar.Proofs.Json.Numbers
import ChoiceGrammar.Proofs.Json.Strings

/-!
# Passing over values

A valid value is passed over to its end, whatever brackets are open around it, so values may nest to
any depth. The induction is on the grammar: each kind of text takes the state at its start to the
state in which the brackets around it go on.
-/

namespace ChoiceGrammar.Json

variable {state next : SkipState} {outer : List Bracket} {text rest : List Char}

theorem skipFrom_step (h : skipStep state text = .ok (some next, rest)) :
    skipFrom state text = skipFrom next rest := by
  rw [skipFrom]
  split
  · next heq => simp [h] at heq
  · next heq => simp [h] at heq
  · next heq =>
      rw [h] at heq
      cases heq
      rfl

/-- Goes on behind a value inside the given brackets. -/
def resume (outer : List Bracket) (rest : List Char) : Except Failure (List Char) :=
  match afterValue outer with
  | none => .ok rest
  | some state => skipFrom state rest

theorem skipFrom_resume (h : skipStep state text = .ok (afterValue outer, rest)) :
    skipFrom state text = resume outer rest := by
  rw [skipFrom, resume]
  split
  · next heq => simp [h] at heq
  · next heq =>
      rw [h] at heq
      obtain ⟨hstate, rfl⟩ : afterValue outer = none ∧ rest = _ := by simpa using heq
      rw [hstate]
  · next heq =>
      rw [h] at heq
      obtain ⟨hstate, rfl⟩ : afterValue outer = some _ ∧ rest = _ := by simpa using heq
      rw [hstate]

theorem skipStep_blanks {blanks : List Char} (h : AllBlank blanks) :
    skipStep state (blanks ++ text) = skipStep state text := by
  simp only [skipStep, skipBlanks_append h]

theorem skipFrom_blanks {blanks : List Char} (h : AllBlank blanks) :
    skipFrom state (blanks ++ text) = skipFrom state text := by
  rw [skipFrom, skipFrom, skipStep_blanks h]

theorem Valid.head_value {value : List Char} (h : Valid .value value) :
    ∃ c tail, value = c :: tail ∧ isBlank c = false ∧ c ≠ ']' := by
  cases h with
  | null => exact ⟨'n', _, rfl, by decide⟩
  | yes => exact ⟨'t', _, rfl, by decide⟩
  | no => exact ⟨'f', _, rfl, by decide⟩
  | string _ => exact ⟨'"', _, rfl, by decide⟩
  | emptyList _ => exact ⟨'[', _, rfl, by decide⟩
  | list _ _ => exact ⟨'[', _, rfl, by decide⟩
  | emptyObject _ => exact ⟨'\x7b', _, rfl, by decide⟩
  | object _ _ => exact ⟨'\x7b', _, rfl, by decide⟩
  | number h =>
      obtain ⟨c, tail, htext, rfl | hc⟩ := h.head
      · exact ⟨'-', tail, htext, by decide⟩
      · exact ⟨c, tail, htext, isBlank_of_isDigit hc, ne_of_isDigit hc (by decide)⟩

theorem Valid.head_items {items : List Char} (h : Valid .items items) :
    ∃ c tail, items = c :: tail ∧ isBlank c = false ∧ c ≠ ']' := by
  cases h with
  | item h _ =>
      obtain ⟨c, tail, rfl, hc⟩ := h.head_value
      exact ⟨c, _, rfl, hc⟩

theorem Valid.endsNumber_moreItems {more : List Char} (h : Valid .moreItems more)
    (rest : List Char) : EndsNumber (more ++ rest) := by
  cases h with
  | lastItem hb => simpa using endsNumber_blanks hb (by simp) rest
  | nextItem hb _ _ => simpa using endsNumber_blanks hb (by simp) _

theorem Valid.endsNumber_moreMembers {more : List Char} (h : Valid .moreMembers more)
    (rest : List Char) : EndsNumber (more ++ rest) := by
  cases h with
  | lastMember hb => simpa using endsNumber_blanks hb (by simp) rest
  | nextMember hb _ _ => simpa using endsNumber_blanks hb (by simp) _

theorem readWord_append (word rest : List Char) : readWord word (word ++ rest) = .ok rest := by
  induction word with
  | nil => rfl
  | cons c word ih => rw [List.cons_append, readWord, if_pos rfl, ih]

theorem skipFrom_scalar {c : Char} {tail : List Char} (hc : isBlank c = false) (hlist : c ≠ '[')
    (hobject : c ≠ '\x7b') (h : skipScalar (c :: tail) = .ok rest) :
    skipFrom (.value outer) (c :: tail) = resume outer rest := by
  apply skipFrom_resume
  simp only [skipStep, skipBlanks_cons hc]
  unfold skipValueStart
  split
  · next heq => exact absurd (List.cons.inj heq).1 hlist
  · next heq => exact absurd (List.cons.inj heq).1 hobject
  · rw [h]
    rfl

theorem skipFrom_number {number : List Char} (h : NumberText number) (hrest : EndsNumber rest) :
    skipFrom (.value outer) (number ++ rest) = resume outer rest := by
  have hskip := skipNumber_of_numberText h hrest
  obtain ⟨c, tail, rfl, hc⟩ := h.head
  have hne : ∀ d ∈ ['[', '\x7b', 'n', 't', 'f', '"'], c ≠ d := by
    have hno : ∀ d ∈ ['[', '\x7b', 'n', 't', 'f', '"'], '-' ≠ d ∧ d.isDigit = false := by simp
    intro d hd
    obtain ⟨hdash, hdigit⟩ := hno d hd
    rcases hc with rfl | hc
    · exact hdash
    · exact ne_of_isDigit hc hdigit
  have hblank : isBlank c = false := by
    rcases hc with rfl | hc
    · decide
    · exact isBlank_of_isDigit hc
  rw [List.cons_append] at hskip ⊢
  apply skipFrom_scalar hblank (hne _ (by simp)) (hne _ (by simp))
  unfold skipScalar
  split
  · next heq => cases heq
  · next heq => exact absurd (List.cons.inj heq).1 (hne _ (by simp))
  · next heq => exact absurd (List.cons.inj heq).1 (hne _ (by simp))
  · next heq => exact absurd (List.cons.inj heq).1 (hne _ (by simp))
  · next heq => exact absurd (List.cons.inj heq).1 (hne _ (by simp))
  · next heq =>
      obtain ⟨rfl, rfl⟩ := List.cons.inj heq
      rw [if_pos hc, hskip]

/-- What passing over a phrase comes to, whatever brackets are open around it. -/
def Passes : Phrase → List Char → Prop
  | .value, text => ∀ outer rest, EndsNumber rest →
      skipFrom (.value outer) (text ++ rest) = resume outer rest
  | .items, text => ∀ outer rest, skipFrom (.value (.list :: outer)) (text ++ rest) =
      resume outer rest
  | .moreItems, text => ∀ outer rest, skipFrom (.more .list outer) (text ++ rest) =
      resume outer rest
  | .members, text => ∀ outer rest, ∃ behind, skipKey (text ++ rest) = .ok behind ∧
      skipFrom (.value (.object :: outer)) behind = resume outer rest
  | .moreMembers, text => ∀ outer rest, skipFrom (.more .object outer) (text ++ rest) =
      resume outer rest

theorem skipFrom_opened_list {c : Char} {tail : List Char} (hc : isBlank c = false)
    (h : c ≠ ']') : skipFrom (.opened .list outer) (c :: tail) =
      skipFrom (.value (.list :: outer)) (c :: tail) := by
  have hstep : skipStep (.opened .list outer) (c :: tail) =
      skipStep (.value (.list :: outer)) (c :: tail) := by
    simp only [skipStep, skipBlanks_cons hc]
    split
    · next heq => cases heq
    · next heq => exact absurd (List.cons.inj heq).1 h
    · rfl
  rw [skipFrom, skipFrom, hstep]

theorem readColon_append {blanks : List Char} (hb : AllBlank blanks) :
    readColon (blanks ++ ':' :: rest) = .ok rest := by
  rw [readColon, skipBlanks_to hb (by decide)]
  rfl

theorem skipKey_append {key blanks : List Char} (hkey : StringBody key) (hb : AllBlank blanks) :
    skipKey ('"' :: (key ++ '"' :: (blanks ++ ':' :: rest))) = .ok rest := by
  rw [skipKey, skipBlanks_cons (by decide)]
  show (skipString _).bind readColon = _
  rw [skipString_of_stringBody hkey]
  exact readColon_append hb

theorem passes_of_valid {phrase : Phrase} {text : List Char} (h : Valid phrase text) :
    Passes phrase text := by
  induction h with
  | null =>
      intro outer rest _
      exact skipFrom_scalar (by decide) (by decide) (by decide) (readWord_append _ rest)
  | yes =>
      intro outer rest _
      exact skipFrom_scalar (by decide) (by decide) (by decide) (readWord_append _ rest)
  | no =>
      intro outer rest _
      exact skipFrom_scalar (by decide) (by decide) (by decide) (readWord_append _ rest)
  | number h =>
      intro outer rest hrest
      exact skipFrom_number h hrest
  | string h =>
      intro outer rest _
      rw [List.cons_append, List.append_assoc]
      exact skipFrom_scalar (by decide) (by decide) (by decide) (skipString_of_stringBody h rest)
  | emptyList hb =>
      intro outer rest _
      rw [List.cons_append, List.append_assoc]
      refine (skipFrom_step rfl).trans ?_
      apply skipFrom_resume
      rw [skipStep_blanks hb]
      rfl
  | list hb hitems ih =>
      intro outer rest _
      obtain ⟨c, tail, rfl, hc, hbracket⟩ := hitems.head_items
      rw [List.cons_append, List.append_assoc]
      refine (skipFrom_step rfl).trans ?_
      rw [skipFrom_blanks hb, List.cons_append, skipFrom_opened_list hc hbracket]
      exact ih outer rest
  | emptyObject hb =>
      intro outer rest _
      rw [List.cons_append, List.append_assoc]
      refine (skipFrom_step rfl).trans ?_
      apply skipFrom_resume
      rw [skipStep_blanks hb]
      rfl
  | object hb hmembers ih =>
      intro outer rest _
      obtain ⟨behind, hkey, hbehind⟩ := ih outer rest
      rw [List.cons_append, List.append_assoc]
      refine (skipFrom_step rfl).trans ?_
      rw [skipFrom_blanks hb, ← hbehind]
      apply skipFrom_step
      cases hmembers with
      | member =>
          rw [List.cons_append] at hkey ⊢
          rw [skipStep, skipBlanks_cons (by decide)]
          show (skipKey _).map _ = _
          rw [hkey]
          rfl
  | item hitem hmore ih ihmore =>
      intro outer rest
      rw [List.append_assoc, ih _ _ (hmore.endsNumber_moreItems rest)]
      exact ihmore outer rest
  | lastItem hb =>
      intro outer rest
      rw [List.append_assoc]
      apply skipFrom_resume
      rw [skipStep_blanks hb]
      rfl
  | nextItem hb hb' hitems ih =>
      intro outer rest
      rw [List.append_assoc, skipFrom_blanks hb, List.cons_append, List.append_assoc]
      refine (skipFrom_step rfl).trans ?_
      rw [skipFrom_blanks hb']
      exact ih outer rest
  | @member key blanks blanks' value more hkey hb hb' hvalue hmore ih ihmore =>
      intro outer rest
      refine ⟨blanks' ++ (value ++ (more ++ rest)), ?_, ?_⟩
      · simp only [List.cons_append, List.append_assoc]
        exact skipKey_append hkey hb
      · rw [skipFrom_blanks hb', ih _ _ (hmore.endsNumber_moreMembers rest)]
        exact ihmore outer rest
  | lastMember hb =>
      intro outer rest
      rw [List.append_assoc]
      apply skipFrom_resume
      rw [skipStep_blanks hb]
      rfl
  | nextMember hb hb' hmembers ih =>
      intro outer rest
      obtain ⟨behind, hkey, hbehind⟩ := ih outer rest
      rw [List.append_assoc, skipFrom_blanks hb, List.cons_append, List.append_assoc, ← hbehind]
      apply skipFrom_step
      rw [skipStep, skipBlanks_cons (by decide)]
      show (skipKey _).map _ = _
      rw [skipKey, skipBlanks_append hb', ← skipKey, hkey]
      rfl

/-- A valid value is passed over. -/
theorem skipValue_of_valid {blanks value : List Char} (hb : AllBlank blanks)
    (h : Valid .value value) (hrest : EndsNumber rest) :
    skipValue (blanks ++ (value ++ rest)) = .ok rest := by
  rw [skipValue, skipFrom_blanks hb]
  exact passes_of_valid h [] rest hrest

end ChoiceGrammar.Json
