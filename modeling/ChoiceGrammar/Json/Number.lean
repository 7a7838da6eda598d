import ChoiceGrammar.Json.Scan

/-!
# Numbers in JSON text

A number is read in two steps: first its parts, then its value. Whole numbers that fit into 64 bits
are exact. All others are doubles: as many digits as fit into 64 bits make a significand, which is
multiplied or divided by powers of ten, each step rounded.
-/

namespace ChoiceGrammar.Json

/-- The parts of a number as written. `fraction` holds the digits after the point, `exponent` the
sign of the exponent, whether negative, and its digits. -/
structure Literal where
  negative : Bool
  whole : List Char
  fraction : Option (List Char)
  exponent : Option (Bool × List Char)

/-- Reads one or more digits; `atEnd` is what is wrong with a text that ends instead. -/
def readDigits (atEnd : Problem) (text : List Char) : Except Failure (List Char × List Char) :=
  match text with
  | [] => .error (.here atEnd [])
  | c :: _ =>
      if c.isDigit then .ok (text.takeWhile Char.isDigit, text.dropWhile Char.isDigit)
      else .error (.here .invalidNumber text)

/-- Reads the digits before the point. A leading zero stands alone. -/
def readWhole (atEnd : Problem) (text : List Char) : Except Failure (List Char × List Char) :=
  match text with
  | '0' :: c :: rest =>
      if c.isDigit then .error (.here .invalidNumber (c :: rest)) else .ok (['0'], c :: rest)
  | _ => readDigits atEnd text

def readFraction (atEnd : Problem) (text : List Char) :
    Except Failure (Option (List Char) × List Char) :=
  match text with
  | '.' :: rest => (readDigits atEnd rest).map fun (digits, rest) => (some digits, rest)
  | _ => .ok (none, text)

def readExponentDigits (atEnd : Problem) (negative : Bool) (text : List Char) :
    Except Failure (Option (Bool × List Char) × List Char) :=
  (readDigits atEnd text).map fun (digits, rest) => (some (negative, digits), rest)

def readExponent (atEnd : Problem) (text : List Char) :
    Except Failure (Option (Bool × List Char) × List Char) :=
  match text with
  | c :: rest =>
      if c = 'e' ∨ c = 'E' then
        match rest with
        | '+' :: rest => readExponentDigits atEnd false rest
        | '-' :: rest => readExponentDigits atEnd true rest
        | _ => readExponentDigits atEnd false rest
      else .ok (none, text)
  | [] => .ok (none, text)

/-- Reads the parts of a number that begins with a digit. -/
def readUnsigned (atEnd : Problem) (negative : Bool) (text : List Char) :
    Except Failure (Literal × List Char) :=
  (readWhole atEnd text).bind fun (whole, text) =>
  (readFraction atEnd text).bind fun (fraction, text) =>
  (readExponent atEnd text).map fun (exponent, text) =>
    (⟨negative, whole, fraction, exponent⟩, text)

def readLiteral (atEnd : Problem) (text : List Char) : Except Failure (Literal × List Char) :=
  match text with
  | '-' :: rest => readUnsigned atEnd true rest
  | _ => readUnsigned atEnd false text

/-- The value of a number: whole numbers that fit into 64 bits are exact. -/
inductive Number where
  | whole (value : Nat)
  | negative (magnitude : Nat)
  | float (negative : Bool) (value : Binary64)
  deriving DecidableEq

def Number.found : Number → Found
  | whole value => .integer value
  | negative magnitude => .integer (-magnitude)
  | float minus value => .float minus value

def digitValue (c : Char) : Nat := c.toNat - '0'.toNat

/-- Appends digits to `value` while it stays within the limit; gives the digits left over. -/
def absorb (limit : Nat) : (value : Nat) → (digits : List Char) → Nat × List Char
  | value, [] => (value, [])
  | value, c :: digits =>
      if value * 10 + digitValue c ≤ limit then absorb limit (value * 10 + digitValue c) digits
      else (value, c :: digits)

def greatestWord : Nat := UInt64.size - 1

def greatestExponent : Nat := (1 <<< 31) - 1

/-- The greatest power of ten that a double can hold. -/
def greatestPower : Nat := 308

def tenTo (n : Nat) : Option Binary64 := Binary64.ofNat (Nat.pow 10 n)

/-- Multiplies by `10 ^ exponent`, by `10 ^ 308` at most in one step; nothing when the result is too
large. -/
def timesTenTo (value : Binary64) (exponent : Int) : Option Binary64 := do
  if exponent.natAbs ≤ greatestPower then
    let power ← tenTo exponent.natAbs
    if 0 ≤ exponent then value.mul power else value.div power
  else if value.significand = 0 then
    return value
  else if 0 ≤ exponent then
    none
  else
    let smaller ← value.div (← tenTo greatestPower)
    timesTenTo smaller (exponent + greatestPower)
termination_by exponent.natAbs
decreasing_by simp only [greatestPower] at *; omega

/-- The value of a number with the given parts. A value that is too large is a failure, found at the
digit of the exponent that makes it so, or else after the number. -/
def Literal.value (parts : Literal) (rest : List Char) : Except Failure Number :=
  let (significand, dropped) := absorb greatestWord 0 parts.whole
  match parts.fraction, parts.exponent, dropped with
  | none, none, [] =>
      if !parts.negative then .ok (.whole significand)
      else if significand = 0 ∨ 1 <<< 63 < significand then float significand 0
      else .ok (.negative significand)
  | _, _, _ =>
      let fraction := parts.fraction.getD []
      let (significand, ignored) := absorb greatestWord significand fraction
      let scale : Int := dropped.length - (fraction.length - ignored.length : Nat)
      match parts.exponent with
      | none => float significand scale
      | some (negative, digits) =>
          match absorb greatestExponent 0 digits with
          | (exponent, []) =>
              float significand (if negative then scale - exponent else scale + exponent)
          | (_, _ :: unread) =>
              if significand ≠ 0 ∧ !negative then
                .error (.before .numberOutOfRange (unread ++ rest))
              else .ok (.float parts.negative .zero)
where
  float (significand : Nat) (exponent : Int) : Except Failure Number :=
    match (Binary64.ofNat significand).bind (timesTenTo · exponent) with
    | some value => .ok (.float parts.negative value)
    | none => .error (.before .numberOutOfRange rest)

def readNumber (text : List Char) : Except Failure (Number × List Char) :=
  (readLiteral .eofInValue text).bind fun (parts, rest) =>
    (parts.value rest).map fun number => (number, rest)

/-- Passes over a number; its value is not looked at. -/
def skipNumber (text : List Char) : Except Failure (List Char) :=
  (readLiteral .invalidNumber text).map Prod.snd

theorem length_readDigits_lt {atEnd : Problem} {text digits rest : List Char}
    (h : readDigits atEnd text = .ok (digits, rest)) : rest.length < text.length := by
  unfold readDigits at h
  split at h
  · simp at h
  · next c tail =>
      split at h
      · next hc =>
          simp only [Except.ok.injEq, Prod.mk.injEq] at h
          have := (List.dropWhile_sublist (l := tail) Char.isDigit).length_le
          rw [← h.2, List.dropWhile_cons_of_pos hc]
          simp only [List.length_cons]
          omega
      · simp at h

theorem length_readWhole_lt {atEnd : Problem} {text digits rest : List Char}
    (h : readWhole atEnd text = .ok (digits, rest)) : rest.length < text.length := by
  unfold readWhole at h
  split at h
  · split at h
    · simp at h
    · simp only [Except.ok.injEq, Prod.mk.injEq] at h
      simp [← h.2]
  · exact length_readDigits_lt h

theorem length_readFraction_le {atEnd : Problem} {text rest : List Char}
    {digits : Option (List Char)}
    (h : readFraction atEnd text = .ok (digits, rest)) : rest.length ≤ text.length := by
  unfold readFraction at h
  split at h
  · obtain ⟨⟨_, _⟩, hd, he⟩ := map_eq_ok_iff.mp h
    cases he
    exact Nat.le_succ_of_le (Nat.le_of_lt (length_readDigits_lt hd))
  · simp_all

theorem length_readExponentDigits_lt {atEnd : Problem} {negative : Bool} {text rest : List Char}
    {digits : Option (Bool × List Char)}
    (h : readExponentDigits atEnd negative text = .ok (digits, rest)) :
    rest.length < text.length := by
  obtain ⟨⟨_, _⟩, hd, he⟩ := map_eq_ok_iff.mp h
  cases he
  exact length_readDigits_lt hd

theorem length_readExponent_le {atEnd : Problem} {text rest : List Char}
    {digits : Option (Bool × List Char)} (h : readExponent atEnd text = .ok (digits, rest)) :
    rest.length ≤ text.length := by
  unfold readExponent at h
  split at h
  · split at h
    · split at h
      all_goals
        have := length_readExponentDigits_lt h
        simp only [List.length_cons] at *
        omega
    · simp_all
  · simp_all

theorem length_readUnsigned_lt {atEnd : Problem} {negative : Bool} {text rest : List Char}
    {parts : Literal} (h : readUnsigned atEnd negative text = .ok (parts, rest)) :
    rest.length < text.length := by
  obtain ⟨⟨_, _⟩, hw, h⟩ := bind_eq_ok_iff.mp h
  obtain ⟨⟨_, _⟩, hf, h⟩ := bind_eq_ok_iff.mp h
  obtain ⟨⟨_, _⟩, he, h⟩ := map_eq_ok_iff.mp h
  cases h
  exact Nat.lt_of_le_of_lt (Nat.le_trans (length_readExponent_le he) (length_readFraction_le hf))
    (length_readWhole_lt hw)

theorem length_readLiteral_lt {atEnd : Problem} {text rest : List Char} {parts : Literal}
    (h : readLiteral atEnd text = .ok (parts, rest)) : rest.length < text.length := by
  unfold readLiteral at h
  split at h
  · exact Nat.lt_succ_of_lt (length_readUnsigned_lt h)
  · exact length_readUnsigned_lt h

theorem length_readNumber_lt {text rest : List Char} {number : Number}
    (h : readNumber text = .ok (number, rest)) : rest.length < text.length := by
  obtain ⟨⟨_, _⟩, hl, h⟩ := bind_eq_ok_iff.mp h
  obtain ⟨_, _, h⟩ := map_eq_ok_iff.mp h
  cases h
  exact length_readLiteral_lt hl

theorem length_skipNumber_lt {text rest : List Char} (h : skipNumber text = .ok rest) :
    rest.length < text.length := by
  obtain ⟨⟨_, _⟩, hl, h⟩ := map_eq_ok_iff.mp h
  cases h
  exact length_readLiteral_lt hl

end ChoiceGrammar.Json
