import ChoiceGrammar.Json.Scan
import ChoiceGrammar.Proofs.Json.Grammar

/-!
# Reading blanks and strings

The scanners read what the grammar allows, to its end and no further. Every spelling of a string is
read as the characters that it spells, and every string that is valid can be passed over.
-/

namespace ChoiceGrammar.Json

theorem isBlank_iff {c : Char} : isBlank c = true ↔ c ∈ [' ', '\t', '\n', '\r'] := by
  simp [isBlank, or_assoc]

theorem skipBlanks_append {blanks : List Char} (h : AllBlank blanks) (text : List Char) :
    skipBlanks (blanks ++ text) = skipBlanks text :=
  List.dropWhile_append_of_pos fun c hc => isBlank_iff.mpr (h c hc)

theorem skipBlanks_cons {c : Char} (h : isBlank c = false) (text : List Char) :
    skipBlanks (c :: text) = c :: text := by
  rw [skipBlanks, List.dropWhile_cons_of_neg (by simp [h])]

theorem skipBlanks_to {blanks : List Char} {c : Char} (h : AllBlank blanks) (hc : isBlank c = false)
    (text : List Char) : skipBlanks (blanks ++ c :: text) = c :: text := by
  rw [skipBlanks_append h, skipBlanks_cons hc]

theorem skipBlanks_all {blanks : List Char} (h : AllBlank blanks) :
    skipBlanks blanks = [] := by
  have hnil := skipBlanks_append h []
  rwa [List.append_nil] at hnil

theorem hexValue_of_hexDigit {c : Char} {n : Nat} (h : HexDigit c n) : hexValue c = some n := by
  have hall : ∀ n < 16, hexValue (Nat.digitChar n) = some n ∧
      hexValue (Nat.digitChar n).toUpper = some n := by decide
  obtain ⟨hlt, rfl | rfl⟩ := h
  · exact (hall n hlt).1
  · exact (hall n hlt).2

theorem unescape_of_mem {letter c : Char} (h : (letter, c) ∈ letterEscapes) :
    unescape letter = some c ∧ letter ≠ 'u' := by
  have hall : ∀ escape ∈ letterEscapes, unescape escape.1 = some escape.2 ∧ escape.1 ≠ 'u' := by
    decide
  exact hall (letter, c) h

section Read

variable {kept : Bool} {done text rest : List Char} {c : Char} {n : Nat} {high : Option Nat}

theorem readStringFrom_plain (h : Plain c) :
    readStringFrom kept .plain done (c :: text) = readStringFrom kept .plain (c :: done) text := by
  obtain ⟨hquote, hbackslash, hcontrol⟩ := h
  rw [readStringFrom, if_neg hquote, if_neg hbackslash, if_neg (Nat.not_lt.mpr hcontrol)]

theorem readStringFrom_letter {letter : Char} (h : (letter, c) ∈ letterEscapes) :
    readStringFrom kept .plain done ('\\' :: letter :: text) =
      readStringFrom kept .plain (c :: done) text := by
  obtain ⟨hescape, hu⟩ := unescape_of_mem h
  simp [readStringFrom, hu, hescape]

theorem readStringFrom_hex {digits : List Char} (h : HexUnit digits n) {state : StringState}
    {char : Option Char} (hafter : afterHex kept n high = .ok (state, char)) :
    readStringFrom kept (.hex 4 0 high) done (digits ++ text) =
      readStringFrom kept state (char.toList ++ done) text := by
  cases h with
  | digits h₃ h₂ h₁ h₀ =>
      simp only [List.cons_append, List.nil_append, readStringFrom, hexValue_of_hexDigit h₃,
        hexValue_of_hexDigit h₂, hexValue_of_hexDigit h₁, hexValue_of_hexDigit h₀, Nat.zero_mul,
        Nat.zero_add, hafter]
      rfl

theorem readStringFrom_unit {digits : List Char} (h : HexUnit digits n) {state : StringState}
    {char : Option Char} (hafter : afterHex kept n none = .ok (state, char)) :
    readStringFrom kept .plain done ('\\' :: 'u' :: (digits ++ text)) =
      readStringFrom kept state (char.toList ++ done) text := by
  simp only [readStringFrom]
  exact readStringFrom_hex h hafter

theorem readStringFrom_close :
    readStringFrom kept .plain done ('"' :: rest) = .ok (done.reverse, rest) := rfl

theorem toNat_not_surrogate (c : Char) : isHighSurrogate c.toNat = false ∧
    isLowSurrogate c.toNat = false := by
  have hvalid : c.toNat.isValidChar := c.valid
  simp only [isHighSurrogate, isLowSurrogate, Nat.isValidChar] at hvalid ⊢
  constructor
  all_goals
    rw [decide_eq_false_iff_not]
    omega

theorem afterHex_toNat (c : Char) : afterHex true c.toNat none = .ok (.plain, some c) := by
  obtain ⟨hhigh, hlow⟩ := toNat_not_surrogate c
  simp [afterHex, hhigh, hlow]

theorem ofPair_units (hc : 0x10000 ≤ c.toNat) :
    ofPair (0xD800 + (c.toNat - 0x10000) / 0x400) (0xDC00 + (c.toNat - 0x10000) % 0x400) = c := by
  have hsplit := Nat.div_add_mod (c.toNat - 0x10000) 0x400
  have hvalue : (0xD800 + (c.toNat - 0x10000) / 0x400 - 0xD800) * 0x400 +
      (0xDC00 + (c.toNat - 0x10000) % 0x400 - 0xDC00) + 0x10000 = c.toNat := by omega
  rw [ofPair, hvalue, Char.ofNat_toNat]

theorem readStringFrom_pair (hc : 0x10000 ≤ c.toNat) {first second : List Char}
    (hfirst : HexUnit first (0xD800 + (c.toNat - 0x10000) / 0x400))
    (hsecond : HexUnit second (0xDC00 + (c.toNat - 0x10000) % 0x400)) (done text : List Char) :
    readStringFrom true .plain done
        ('\\' :: 'u' :: (first ++ '\\' :: 'u' :: (second ++ text))) =
      readStringFrom true .plain (c :: done) text := by
  have hsmall : c.toNat < 0x110000 := by
    have hvalid : c.toNat.isValidChar := c.valid
    simp only [Nat.isValidChar] at hvalid
    omega
  have hlead : afterHex true (0xD800 + (c.toNat - 0x10000) / 0x400) none =
      .ok (.backslashDue (0xD800 + (c.toNat - 0x10000) / 0x400), none) := by
    have hnotlow : isLowSurrogate (0xD800 + (c.toNat - 0x10000) / 0x400) = false := by
      rw [isLowSurrogate, decide_eq_false_iff_not]
      omega
    have hhigh : isHighSurrogate (0xD800 + (c.toNat - 0x10000) / 0x400) = true := by
      rw [isHighSurrogate, decide_eq_true_iff]
      omega
    simp [afterHex, hnotlow, hhigh]
  have hother : afterHex true (0xDC00 + (c.toNat - 0x10000) % 0x400)
      (some (0xD800 + (c.toNat - 0x10000) / 0x400)) = .ok (.plain, some c) := by
    have hlow : isLowSurrogate (0xDC00 + (c.toNat - 0x10000) % 0x400) = true := by
      rw [isLowSurrogate, decide_eq_true_iff]
      omega
    simp [afterHex, hlow, ofPair_units hc]
  rw [readStringFrom_unit hfirst hlead]
  simp only [readStringFrom]
  exact readStringFrom_hex hsecond hother

end Read

theorem readStringFrom_spelled {text tail done : List Char} {c : Char} (h : SpellsChar text c) :
    readStringFrom true .plain done (text ++ tail) =
      readStringFrom true .plain (c :: done) tail := by
  cases h with
  | plain h => exact readStringFrom_plain h
  | letter h => exact readStringFrom_letter h
  | unit h => exact readStringFrom_unit h (afterHex_toNat c)
  | pair hc hhigh hlow =>
      have hpair := readStringFrom_pair hc hhigh hlow done tail
      simpa using hpair

theorem readStringFrom_spells {body cs : List Char} (h : Spells body cs) (done rest : List Char) :
    readStringFrom true .plain done (body ++ '"' :: rest) = .ok (done.reverse ++ cs, rest) := by
  induction h generalizing done with
  | nil => rw [List.nil_append, readStringFrom_close, List.append_nil]
  | cons hc _ ih =>
      rw [List.append_assoc, readStringFrom_spelled hc, ih]
      simp

/-- A string is read as what it spells. -/
theorem readString_spells {body cs : List Char} (h : Spells body cs) (rest : List Char) :
    readString (body ++ '"' :: rest) = .ok (.ofList cs, rest) := by
  rw [readString, readStringFrom_spells h]
  rfl

theorem exists_readStringFrom {body : List Char} (h : StringBody body) (done rest : List Char) :
    ∃ chars, readStringFrom false .plain done (body ++ '"' :: rest) = .ok (chars, rest) := by
  induction h generalizing done with
  | nil => exact ⟨done.reverse, readStringFrom_close⟩
  | plain hc _ ih =>
      obtain ⟨chars, hread⟩ := ih (_ :: done)
      exact ⟨chars, (readStringFrom_plain hc).trans hread⟩
  | letter hc _ ih =>
      obtain ⟨chars, hread⟩ := ih (_ :: done)
      exact ⟨chars, (readStringFrom_letter hc).trans hread⟩
  | unit hn _ ih =>
      obtain ⟨chars, hread⟩ := ih done
      refine ⟨chars, ?_⟩
      rw [List.cons_append, List.cons_append, List.append_assoc]
      exact (readStringFrom_unit hn rfl).trans hread

theorem skipString_of_stringBody {body : List Char} (h : StringBody body) (rest : List Char) :
    skipString (body ++ '"' :: rest) = .ok rest := by
  obtain ⟨chars, hread⟩ := exists_readStringFrom h [] rest
  rw [skipString, hread]
  rfl

end ChoiceGrammar.Json
