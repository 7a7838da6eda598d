import ChoiceGrammar.Json.Problem

/-!
# Scanners for the parts of JSON text

A scanner takes what is left of a text and gives what it read and what is left after it. It stops at
the first character that cannot be placed. The closing parts of strings, numbers and words are read
here; blanks may stand between any two parts.
-/

namespace ChoiceGrammar.Json

theorem map_eq_ok_iff {ε α β : Type} {x : Except ε α} {f : α → β} {b : β} :
    x.map f = .ok b ↔ ∃ a, x = .ok a ∧ f a = b := by
  cases x <;> simp [Except.map]

theorem bind_eq_ok_iff {ε α β : Type} {x : Except ε α} {f : α → Except ε β} {b : β} :
    x.bind f = .ok b ↔ ∃ a, x = .ok a ∧ f a = .ok b := by
  cases x <;> simp [Except.bind]

def isBlank (c : Char) : Bool := c == ' ' || c == '\t' || c == '\n' || c == '\r'

def skipBlanks (text : List Char) : List Char := text.dropWhile isBlank

theorem length_skipBlanks_le (text : List Char) : (skipBlanks text).length ≤ text.length :=
  (List.dropWhile_sublist _).length_le

def readWord : (word text : List Char) → Except Failure (List Char)
  | [], text => .ok text
  | _ :: _, [] => .error (.here .eofInValue [])
  | w :: word, c :: text =>
      if c = w then readWord word text else .error (.here .expectedWord (c :: text))

theorem length_readWord_le {word text rest : List Char} (h : readWord word text = .ok rest) :
    rest.length ≤ text.length := by
  induction word generalizing text with
  | nil => simp_all [readWord]
  | cons w word ih =>
      cases text with
      | nil => simp [readWord] at h
      | cons c text =>
          simp only [readWord] at h
          split at h
          · have := ih h; simp; omega
          · simp at h

def hexValue (c : Char) : Option Nat :=
  if '0' ≤ c ∧ c ≤ '9' then some (c.toNat - '0'.toNat)
  else if 'a' ≤ c ∧ c ≤ 'f' then some (c.toNat - 'a'.toNat + 10)
  else if 'A' ≤ c ∧ c ≤ 'F' then some (c.toNat - 'A'.toNat + 10)
  else none

/-- The character that a one-letter escape stands for. -/
def unescape (c : Char) : Option Char :=
  match c with
  | '"' => some '"'
  | '\\' => some '\\'
  | '/' => some '/'
  | 'b' => some '\x08'
  | 'f' => some '\x0c'
  | 'n' => some '\n'
  | 'r' => some '\r'
  | 't' => some '\t'
  | _ => none

def isHighSurrogate (unit : Nat) : Bool := 0xD800 ≤ unit ∧ unit ≤ 0xDBFF

def isLowSurrogate (unit : Nat) : Bool := 0xDC00 ≤ unit ∧ unit ≤ 0xDFFF

def ofPair (high low : Nat) : Char := .ofNat ((high - 0xD800) * 0x400 + (low - 0xDC00) + 0x10000)

/-- Where a scanner stands inside a string. `high` is a leading surrogate that waits for the escape
of its other half. -/
inductive StringState where
  | plain
  | escape
  | hex (left value : Nat) (high : Option Nat)
  | backslashDue (high : Nat)
  | letterDue (high : Nat)

/-- Where a scanner stands after the last digit of a `\u` escape, and the character that is
complete. A text that is `kept` must have its surrogates in pairs. -/
def afterHex (kept : Bool) (unit : Nat) (high : Option Nat) :
    Except Problem (StringState × Option Char) :=
  match high with
  | some h =>
      if isLowSurrogate unit then .ok (.plain, some (ofPair h unit)) else .error .loneSurrogate
  | none =>
      if !kept then .ok (.plain, none)
      else if isLowSurrogate unit then .error .loneSurrogate
      else if isHighSurrogate unit then .ok (.backslashDue unit, none)
      else .ok (.plain, some (.ofNat unit))

/-- Reads a string from behind its opening quote, `done` holding its characters so far, latest
first. A text that is not `kept` is only passed over. -/
def readStringFrom (kept : Bool) :
    StringState → (done text : List Char) → Except Failure (List Char × List Char)
  | _, _, [] => .error (.here .eofInString [])
  | .plain, done, c :: text =>
      if c = '"' then .ok (done.reverse, text)
      else if c = '\\' then readStringFrom kept .escape done text
      else if c.toNat < 0x20 then
        .error ((if kept then Failure.here else Failure.before) .controlCharacter (c :: text))
      else readStringFrom kept .plain (c :: done) text
  | .escape, done, c :: text =>
      if c = 'u' then readStringFrom kept (.hex 4 0 none) done text
      else
        match unescape c with
        | some d => readStringFrom kept .plain (d :: done) text
        | none => .error (.here .invalidEscape (c :: text))
  | .hex left value high, done, c :: text =>
      match hexValue c with
      | none =>
          if byteLength (c :: text) < left then .error (.here .eofInString [])
          else .error ⟨.invalidEscape, byteLength (c :: text) - left⟩
      | some digit =>
          if 1 < left then readStringFrom kept (.hex (left - 1) (value * 16 + digit) high) done text
          else
            match afterHex kept (value * 16 + digit) high with
            | .ok (state, char) => readStringFrom kept state (char.toList ++ done) text
            | .error problem => .error (.before problem text)
  | .backslashDue high, done, c :: text =>
      if c = '\\' then readStringFrom kept (.letterDue high) done text
      else .error (.here .unfinishedPair (c :: text))
  | .letterDue high, done, c :: text =>
      if c = 'u' then readStringFrom kept (.hex 4 0 (some high)) done text
      else .error (.here .unfinishedPair (c :: text))

/-- Reads a string from behind its opening quote. -/
def readString (text : List Char) : Except Failure (String × List Char) :=
  (readStringFrom true .plain [] text).map fun (chars, rest) => (.ofList chars, rest)

/-- Passes over a string from behind its opening quote; its surrogates are not looked at. -/
def skipString (text : List Char) : Except Failure (List Char) :=
  (readStringFrom false .plain [] text).map Prod.snd

theorem length_readStringFrom_lt {kept : Bool} {state : StringState}
    {done text chars rest : List Char}
    (h : readStringFrom kept state done text = .ok (chars, rest)) : rest.length < text.length := by
  induction text generalizing state done with
  | nil => simp [readStringFrom] at h
  | cons c text ih =>
      have step : ∀ {state done}, readStringFrom kept state done text = .ok (chars, rest) →
          rest.length < (c :: text).length := fun h => by have := ih h; simp; omega
      cases state <;> simp only [readStringFrom] at h <;> repeat' split at h
      all_goals first | exact step h | (simp at h; done) | (simp at h; simp [h.2])

theorem length_readString_lt {text rest : List Char} {s : String}
    (h : readString text = .ok (s, rest)) : rest.length < text.length := by
  obtain ⟨⟨chars, rest⟩, hs, he⟩ := map_eq_ok_iff.mp h
  cases he
  exact length_readStringFrom_lt hs

theorem length_skipString_lt {text rest : List Char} (h : skipString text = .ok rest) :
    rest.length < text.length := by
  obtain ⟨⟨chars, rest⟩, hs, he⟩ := map_eq_ok_iff.mp h
  cases he
  exact length_readStringFrom_lt hs

end ChoiceGrammar.Json
