import ChoiceGrammar.Json.Skip

/-!
# Values of a given type

Readers for a value whose type is known beforehand. A value of another type is read far enough to
say what it is: a scalar to its end, a list or an object not at all.
-/

namespace ChoiceGrammar.Json

/-- Reads a value far enough to say what it is. -/
def readFound (text : List Char) : Except Failure (Found × List Char) :=
  match text with
  | [] => .error (.here .eofInValue [])
  | 'n' :: rest => (readWord "ull".toList rest).map fun rest => (.null, rest)
  | 't' :: rest => (readWord "rue".toList rest).map fun rest => (.bool true, rest)
  | 'f' :: rest => (readWord "alse".toList rest).map fun rest => (.bool false, rest)
  | '"' :: rest => (readString rest).map fun (text, rest) => (.string text, rest)
  | '[' :: _ => .ok (.sequence, text)
  | '\x7b' :: _ => .ok (.map, text)
  | c :: _ =>
      if c = '-' ∨ c.isDigit then (readNumber text).map fun (number, rest) => (number.found, rest)
      else .error (.here .expectedValue text)

/-- What is wrong with a value of another type than the expected one. -/
def mismatch (expected : String) (text : List Char) : Failure :=
  match readFound text with
  | .ok (found, rest) => .before (.wrongType found expected) rest
  | .error failure => failure

def readBool (text : List Char) : Except Failure (Bool × List Char) :=
  match skipBlanks text with
  | 't' :: rest => (readWord "rue".toList rest).map fun rest => (true, rest)
  | 'f' :: rest => (readWord "alse".toList rest).map fun rest => (false, rest)
  | text => .error (mismatch "a boolean" text)

/-- The only character of a text that has one. -/
def onlyChar (text : String) (rest : List Char) : Except Failure (Char × List Char) :=
  match text.toList with
  | [c] => .ok (c, rest)
  | _ => .error (.before (.wrongValue (.string text) "a character") rest)

def readChar (text : List Char) : Except Failure (Char × List Char) :=
  match skipBlanks text with
  | '"' :: rest => (readString rest).bind fun (text, rest) => onlyChar text rest
  | text => .error (mismatch "a character" text)

/-- A number as a whole number of 64 bits. -/
def Number.toSize (rest : List Char) : Number → Except Failure (UInt64 × List Char)
  | whole value => .ok (.ofNat value, rest)
  | negative magnitude => .error (.before (.wrongValue (.integer (-magnitude)) "usize") rest)
  | float minus value => .error (.before (.wrongType (.float minus value) "usize") rest)

def readSize (text : List Char) : Except Failure (UInt64 × List Char) :=
  match skipBlanks text with
  | [] => .error (.here .eofInValue [])
  | c :: tail =>
      if c = '-' ∨ c.isDigit then
        (readNumber (c :: tail)).bind fun (number, rest) => number.toSize rest
      else .error (mismatch "usize" (c :: tail))

theorem length_readBool_lt {text rest : List Char} {value : Bool}
    (h : readBool text = .ok (value, rest)) : rest.length < text.length := by
  have hb := length_skipBlanks_le text
  unfold readBool at h
  split at h
  · next ht =>
      obtain ⟨_, hw, he⟩ := map_eq_ok_iff.mp h
      cases he
      have := length_readWord_le hw
      simp only [ht, List.length_cons] at hb
      omega
  · next ht =>
      obtain ⟨_, hw, he⟩ := map_eq_ok_iff.mp h
      cases he
      have := length_readWord_le hw
      simp only [ht, List.length_cons] at hb
      omega
  · simp at h

theorem length_readChar_lt {text rest : List Char} {value : Char}
    (h : readChar text = .ok (value, rest)) : rest.length < text.length := by
  have hb := length_skipBlanks_le text
  unfold readChar at h
  split at h
  · next ht =>
      obtain ⟨⟨_, _⟩, hs, h⟩ := bind_eq_ok_iff.mp h
      have := length_readString_lt hs
      simp only [onlyChar] at h
      split at h
      · cases h
        simp only [ht, List.length_cons] at hb
        omega
      · simp at h
  · simp at h

theorem length_readSize_lt {text rest : List Char} {value : UInt64}
    (h : readSize text = .ok (value, rest)) : rest.length < text.length := by
  have hb := length_skipBlanks_le text
  unfold readSize at h
  split at h
  · simp at h
  · next ht =>
      split at h
      · obtain ⟨⟨number, _⟩, hn, h⟩ := bind_eq_ok_iff.mp h
        have := length_readNumber_lt hn
        rw [← ht] at this
        cases number <;> simp [Number.toSize] at h
        rw [← h.2]
        omega
      · simp at h

end ChoiceGrammar.Json
