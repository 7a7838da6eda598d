import ChoiceGrammar.Json.Number
import ChoiceGrammar.Proofs.Json.Grammar

/-!
# Reading numbers

A number is read to its end where nothing follows that could go on with it. Any number that is valid
can be passed over, and digits without a sign, a point or an exponent are read as the whole number
that they write.
-/

namespace ChoiceGrammar.Json

/-- What follows cannot belong to a number. -/
def EndsNumber (rest : List Char) : Prop :=
  ∀ c ∈ rest.head?, c.isDigit = false ∧ c ≠ '.' ∧ c ≠ 'e' ∧ c ≠ 'E'

theorem endsNumber_blanks {blanks : List Char} (hb : AllBlank blanks) {c : Char}
    (hc : c ∈ [',', ']', '\x7d']) (rest : List Char) : EndsNumber (blanks ++ c :: rest) := by
  have hends : ∀ d ∈ [' ', '\t', '\n', '\r', ',', ']', '\x7d'],
      d.isDigit = false ∧ d ≠ '.' ∧ d ≠ 'e' ∧ d ≠ 'E' := by simp
  intro d hd
  apply hends
  cases blanks with
  | nil =>
      obtain rfl : c = d := by simpa using hd
      exact List.mem_append_right [' ', '\t', '\n', '\r'] hc
  | cons b blanks =>
      obtain rfl : b = d := by simpa using hd
      exact List.mem_append_left [',', ']', '\x7d'] (hb b (by simp))

theorem ne_of_isDigit {c d : Char} (hc : c.isDigit = true) (hd : d.isDigit = false) : c ≠ d := by
  intro heq
  subst heq
  simp [hd] at hc

theorem isBlank_of_isDigit {c : Char} (hc : c.isDigit = true) : isBlank c = false := by
  have hne : ∀ d ∈ [' ', '\t', '\n', '\r'], c ≠ d := by
    have hnone : ∀ d ∈ [' ', '\t', '\n', '\r'], d.isDigit = false := by simp
    intro d hd
    exact ne_of_isDigit hc (hnone d hd)
  simp [isBlank, hne]

variable {atEnd : Problem} {rest : List Char}

/-- Nothing that could be a digit follows. -/
def EndsDigits (rest : List Char) : Prop := ∀ c ∈ rest.head?, c.isDigit = false

theorem EndsNumber.endsDigits (h : EndsNumber rest) : EndsDigits rest := fun c hc => (h c hc).1

theorem takeWhile_digits {digits : List Char} (h : ∀ c ∈ digits, c.isDigit = true)
    (hrest : EndsDigits rest) : (digits ++ rest).takeWhile Char.isDigit = digits ∧
      (digits ++ rest).dropWhile Char.isDigit = rest := by
  rw [List.takeWhile_append_of_pos h, List.dropWhile_append_of_pos h]
  cases rest with
  | nil => simp
  | cons c rest =>
      have hc : ¬ c.isDigit = true := by simp [hrest c rfl]
      rw [List.takeWhile_cons_of_neg hc, List.dropWhile_cons_of_neg hc, List.append_nil]
      exact ⟨rfl, rfl⟩

theorem readDigits_append (atEnd : Problem) {digits : List Char} (h : Digits digits)
    (hrest : EndsDigits rest) :
    readDigits atEnd (digits ++ rest) = .ok (digits, rest) := by
  obtain ⟨htake, hdrop⟩ := takeWhile_digits h.2 hrest
  obtain ⟨c, tail, rfl, hc⟩ := h.head
  rw [List.cons_append] at htake hdrop ⊢
  rw [readDigits, if_pos hc, htake, hdrop]

theorem readWhole_append (atEnd : Problem) {digits : List Char} (h : WholeDigits digits)
    (hrest : EndsDigits rest) :
    readWhole atEnd (digits ++ rest) = .ok (digits, rest) := by
  obtain ⟨hdigits, hzero⟩ := h
  unfold readWhole
  split
  · next c tail heq =>
      have hhead : digits.head? = some '0' := by
        obtain ⟨d, more, rfl, -⟩ := hdigits.head
        simpa using (List.cons.inj heq).1
      obtain rfl := hzero hhead
      obtain rfl : rest = c :: tail := by simpa using heq
      rw [if_neg (by simp [hrest c rfl])]
  · exact readDigits_append atEnd hdigits hrest

theorem readFraction_absent (h : rest.head? ≠ some '.') :
    readFraction atEnd rest = .ok (none, rest) := by
  unfold readFraction
  split
  · simp at h
  · rfl

theorem readExponent_absent (h : EndsNumber rest) : readExponent atEnd rest = .ok (none, rest) := by
  unfold readExponent
  split
  · next c tail =>
      obtain ⟨-, -, he, hE⟩ := h c rfl
      rw [if_neg (by simp [he, hE])]
  · rfl

theorem exists_readFraction (atEnd : Problem) {text : List Char} (h : FractionPart text)
    (hrest : EndsDigits rest) (hpoint : rest.head? ≠ some '.') :
    ∃ digits, readFraction atEnd (text ++ rest) = .ok (digits, rest) := by
  cases h with
  | absent => exact ⟨none, readFraction_absent hpoint⟩
  | @digits text h =>
      refine ⟨some text, ?_⟩
      rw [List.cons_append, readFraction, readDigits_append atEnd h hrest]
      rfl

theorem readExponentDigits_append (atEnd : Problem) {text : List Char} (h : Digits text)
    (hrest : EndsDigits rest) (negative : Bool) :
    readExponentDigits atEnd negative (text ++ rest) = .ok (some (negative, text), rest) := by
  rw [readExponentDigits, readDigits_append atEnd h hrest]
  rfl

theorem exists_readExponent (atEnd : Problem) {text : List Char} (h : ExponentPart text)
    (hrest : EndsNumber rest) :
    ∃ digits, readExponent atEnd (text ++ rest) = .ok (digits, rest) := by
  cases h with
  | absent => exact ⟨none, readExponent_absent hrest⟩
  | @digits e sign text he hsign h =>
      have hread := readExponentDigits_append atEnd h hrest.endsDigits
      have hsigns : sign = [] ∨ sign = ['+'] ∨ sign = ['-'] := by simpa using hsign
      rcases hsigns with rfl | rfl | rfl
      · refine ⟨some (false, text), ?_⟩
        obtain ⟨c, tail, rfl, hc⟩ := h.head
        have hplus : c ≠ '+' := ne_of_isDigit hc (by decide)
        have hminus : c ≠ '-' := ne_of_isDigit hc (by decide)
        simp only [List.cons_append, List.nil_append, readExponent, if_pos he]
        split
        · next heq => exact absurd (List.cons.inj heq).1 hplus
        · next heq => exact absurd (List.cons.inj heq).1 hminus
        · exact hread false
      · refine ⟨some (false, text), ?_⟩
        simp only [List.cons_append, List.nil_append, readExponent, if_pos he]
        exact hread false
      · refine ⟨some (true, text), ?_⟩
        simp only [List.cons_append, List.nil_append, readExponent, if_pos he]
        exact hread true

theorem endsDigits_exponent {text : List Char} (h : ExponentPart text) (hrest : EndsNumber rest) :
    EndsDigits (text ++ rest) ∧ (text ++ rest).head? ≠ some '.' := by
  cases h with
  | absent =>
      refine ⟨hrest.endsDigits, ?_⟩
      intro hpoint
      exact (hrest '.' hpoint).2.1 rfl
  | digits he _ _ => rcases he with rfl | rfl <;> simp [EndsDigits]

theorem endsDigits_fraction {text : List Char} (h : FractionPart text) (hrest : EndsDigits rest) :
    EndsDigits (text ++ rest) := by
  cases h with
  | absent => exact hrest
  | digits _ => simp [EndsDigits]

theorem exists_readUnsigned (atEnd : Problem) {whole fraction exponent : List Char}
    (hwhole : WholeDigits whole) (hfraction : FractionPart fraction)
    (hexponent : ExponentPart exponent) (hrest : EndsNumber rest) (negative : Bool) :
    ∃ parts, readUnsigned atEnd negative (whole ++ (fraction ++ (exponent ++ rest))) =
      .ok (parts, rest) := by
  obtain ⟨hdigits, hpoint⟩ := endsDigits_exponent hexponent hrest
  obtain ⟨fractionDigits, hreadFraction⟩ := exists_readFraction atEnd hfraction hdigits hpoint
  obtain ⟨exponentDigits, hreadExponent⟩ := exists_readExponent atEnd hexponent hrest
  refine ⟨⟨negative, whole, fractionDigits, exponentDigits⟩, ?_⟩
  rw [readUnsigned, readWhole_append atEnd hwhole (endsDigits_fraction hfraction hdigits)]
  simp only [Except.bind, hreadFraction, hreadExponent]
  rfl

theorem readLiteral_of_digit {c : Char} (hc : c.isDigit = true) (text : List Char) :
    readLiteral atEnd (c :: text) = readUnsigned atEnd false (c :: text) := by
  unfold readLiteral
  split
  · next heq => exact absurd (List.cons.inj heq).1 (ne_of_isDigit hc (by decide))
  · rfl

theorem NumberText.head {text : List Char} (h : NumberText text) :
    ∃ c tail, text = c :: tail ∧ (c = '-' ∨ c.isDigit = true) := by
  cases h with
  | @parts sign whole fraction exponent hsign hwhole _ _ =>
      have hsigns : sign = [] ∨ sign = ['-'] := by simpa using hsign
      rcases hsigns with rfl | rfl
      · obtain ⟨c, tail, rfl, hc⟩ := hwhole.1.head
        exact ⟨c, _, rfl, .inr hc⟩
      · exact ⟨'-', _, rfl, .inl rfl⟩

theorem skipNumber_of_numberText {text : List Char} (h : NumberText text)
    (hrest : EndsNumber rest) : skipNumber (text ++ rest) = .ok rest := by
  cases h with
  | @parts sign whole fraction exponent hsign hwhole hfraction hexponent =>
      have hread := exists_readUnsigned .invalidNumber hwhole hfraction hexponent hrest
      have hsigns : sign = [] ∨ sign = ['-'] := by simpa using hsign
      simp only [List.append_assoc]
      rcases hsigns with rfl | rfl
      · obtain ⟨parts, hparts⟩ := hread false
        obtain ⟨c, tail, rfl, hc⟩ := hwhole.1.head
        rw [List.cons_append] at hparts
        rw [List.nil_append, skipNumber, List.cons_append, readLiteral_of_digit hc, hparts]
        rfl
      · obtain ⟨parts, hparts⟩ := hread true
        rw [skipNumber, List.cons_append, List.nil_append, readLiteral, hparts]
        rfl

/-- The number that some digits write behind the digits of another one. -/
def shifted (value : Nat) (digits : List Char) : Nat :=
  digits.foldl (fun value c => value * 10 + digitValue c) value

theorem le_shifted (value : Nat) (digits : List Char) : value ≤ shifted value digits := by
  induction digits generalizing value with
  | nil => exact Nat.le_refl value
  | cons c digits ih =>
      have hnext := ih (value * 10 + digitValue c)
      rw [shifted, List.foldl_cons, ← shifted]
      omega

theorem absorb_eq {limit value : Nat} {digits : List Char} (h : shifted value digits ≤ limit) :
    absorb limit value digits = (shifted value digits, []) := by
  induction digits generalizing value with
  | nil => rfl
  | cons c digits ih =>
      have hfirst := le_shifted (value * 10 + digitValue c) digits
      have hshift : shifted value (c :: digits) = shifted (value * 10 + digitValue c) digits := rfl
      rw [hshift] at h
      rw [absorb, if_pos (Nat.le_trans hfirst h), ih h, hshift]

theorem shifted_zero (digits : List Char) : shifted 0 digits = Nat.ofDigitChars 10 digits 0 := by
  simp only [shifted, Nat.ofDigitChars_eq_foldl, Nat.mul_comm, digitValue]

theorem readNumber_whole {digits : List Char} (h : WholeDigits digits)
    (hfits : Nat.ofDigitChars 10 digits 0 < UInt64.size) (hrest : EndsNumber rest) :
    readNumber (digits ++ rest) = .ok (.whole (Nat.ofDigitChars 10 digits 0), rest) := by
  have hpoint : rest.head? ≠ some '.' := fun hpoint => (hrest '.' hpoint).2.1 rfl
  have hlimit : shifted 0 digits ≤ greatestWord := by
    rw [shifted_zero]
    exact Nat.le_sub_one_of_lt hfits
  have hparts : readUnsigned .eofInValue false (digits ++ rest) =
      .ok (⟨false, digits, none, none⟩, rest) := by
    rw [readUnsigned, readWhole_append .eofInValue h hrest.endsDigits]
    simp only [Except.bind, readFraction_absent hpoint, readExponent_absent hrest]
    rfl
  have hliteral : readLiteral .eofInValue (digits ++ rest) =
      readUnsigned .eofInValue false (digits ++ rest) := by
    obtain ⟨c, tail, rfl, hc⟩ := h.1.head
    exact readLiteral_of_digit hc _
  rw [readNumber, hliteral, hparts]
  simp only [Except.bind, Literal.value, absorb_eq hlimit, shifted_zero]
  rfl

end ChoiceGrammar.Json
