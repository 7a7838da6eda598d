import ChoiceGrammar.Corpus.Config
import ChoiceGrammar.Json.Typed

/-!
# Options from JSON text

An object sets options by name, in any order and with unknown members passed over; an array sets
them by place. What is not set keeps its default. The text is read once from left to right, and the
first problem met, of syntax or of type, is the answer.
-/

namespace ChoiceGrammar.CorpusConfig

open Json

/-- The options that a text has set so far. -/
structure Settings where
  commentMark : Option Char
  skipBlankLines : Option Bool
  maxDepth : Option UInt64

namespace Settings

def none : Settings := ⟨.none, .none, .none⟩

/-- The options set, the others at their default. -/
def complete (settings : Settings) : CorpusConfig where
  commentMark := settings.commentMark.getD default.commentMark
  skipBlankLines := settings.skipBlankLines.getD default.skipBlankLines
  maxDepth := settings.maxDepth.getD default.maxDepth

def has (settings : Settings) : Field → Bool
  | .commentMark => settings.commentMark.isSome
  | .skipBlankLines => settings.skipBlankLines.isSome
  | .maxDepth => settings.maxDepth.isSome

end Settings

def readField (settings : Settings) (text : List Char) :
    Field → Except Failure (Settings × List Char)
  | .commentMark =>
      (readChar text).map fun (value, rest) => ({ settings with commentMark := some value }, rest)
  | .skipBlankLines =>
      (readBool text).map fun (value, rest) =>
        ({ settings with skipBlankLines := some value }, rest)
  | .maxDepth =>
      (readSize text).map fun (value, rest) => ({ settings with maxDepth := some value }, rest)

theorem length_readField_lt {settings settings' : Settings} {field : Field} {text rest : List Char}
    (h : readField settings text field = .ok (settings', rest)) : rest.length < text.length := by
  cases field <;> obtain ⟨⟨_, _⟩, hv, he⟩ := map_eq_ok_iff.mp h <;> cases he
  · exact length_readChar_lt hv
  · exact length_readBool_lt hv
  · exact length_readSize_lt hv

/-- What is left behind the blanks that follow a repeated key, and behind a closing brace. -/
def behindRepeatedKey (text : List Char) : List Char :=
  match skipBlanks text with
  | '\x7d' :: rest => rest
  | rest => rest

/-- Reads the colon and the value of a member. A repeated field is refused before its value is
looked at. -/
def readMemberValue (settings : Settings) (key : String) (text : List Char) :
    Except Failure (Settings × List Char) :=
  match Field.ofName? key with
  | none => ((readColon text).bind skipValue).map fun rest => (settings, rest)
  | some field =>
      if settings.has field then
        .error (.before (.duplicateField field.name) (behindRepeatedKey text))
      else (readColon text).bind fun rest => readField settings rest field

/-- Reads a member from behind the opening quote of its key. -/
def readMember (settings : Settings) (text : List Char) : Except Failure (Settings × List Char) :=
  (readString text).bind fun (key, rest) => readMemberValue settings key rest

theorem length_readMember_lt {settings settings' : Settings} {text rest : List Char}
    (h : readMember settings text = .ok (settings', rest)) : rest.length < text.length := by
  obtain ⟨⟨key, behind⟩, hk, h⟩ := bind_eq_ok_iff.mp h
  have := length_readString_lt hk
  simp only [readMemberValue] at h
  split at h
  · obtain ⟨_, hv, he⟩ := map_eq_ok_iff.mp h
    cases he
    obtain ⟨_, hc, hv⟩ := bind_eq_ok_iff.mp hv
    have := length_readColon_lt hc
    have := length_skipValue_lt hv
    omega
  · split at h
    · simp at h
    · obtain ⟨_, hc, hv⟩ := bind_eq_ok_iff.mp h
      have := length_readColon_lt hc
      have := length_readField_lt hv
      omega

/-- What comes next between brackets, and what is left behind what leads to it. -/
inductive Entry where
  | item (rest : List Char)
  | closed (rest : List Char)

/-- Goes to the next member, behind its opening quote, or behind the closing brace. Every member but
the first has a comma before it. -/
def nextMember (first : Bool) (text : List Char) : Except Failure Entry :=
  match skipBlanks text with
  | [] => .error (.here .eofInObject [])
  | '\x7d' :: rest => .ok (.closed rest)
  | c :: rest =>
      if first then
        if c = '"' then .ok (.item rest) else .error (.here .keyNotString (c :: rest))
      else if c = ',' then
        match skipBlanks rest with
        | [] => .error (.here .eofInValue [])
        | '"' :: rest => .ok (.item rest)
        | '\x7d' :: rest => .error (.here .trailingComma ('\x7d' :: rest))
        | rest => .error (.here .keyNotString rest)
      else .error (.here .expectedCommaOrBrace (c :: rest))

theorem length_nextMember_lt {first : Bool} {text rest : List Char}
    (h : nextMember first text = .ok (.item rest)) : rest.length < text.length := by
  have hb := length_skipBlanks_le text
  unfold nextMember at h
  split at h
  · simp at h
  · simp at h
  · next inner _ ht =>
      have hi := length_skipBlanks_le inner
      simp only [ht, List.length_cons] at hb
      split at h
      · split at h
        · simp at h; rw [← h]; omega
        · simp at h
      · split at h
        · split at h
          · simp at h
          · next hq => simp at h; simp [hq, h] at hi; omega
          · simp at h
          · simp at h
        · simp at h

/-- Reads the members of an object from behind its opening brace or a member. -/
def readMembers (first : Bool) (settings : Settings) (text : List Char) :
    Except Failure (Settings × List Char) :=
  match _hn : nextMember first text with
  | .error failure => .error failure
  | .ok (.closed rest) => .ok (settings, rest)
  | .ok (.item rest) =>
      match _hm : readMember settings rest with
      | .error failure => .error failure
      | .ok (settings, rest) => readMembers false settings rest
termination_by text.length
decreasing_by exact Nat.lt_trans (length_readMember_lt _hm) (length_nextMember_lt _hn)

/-- Goes to the next element, or behind the closing bracket. Every element but the first has a comma
before it. -/
def nextElement (first : Bool) (text : List Char) : Except Failure Entry :=
  match skipBlanks text with
  | [] => .error (.here .eofInList [])
  | ']' :: rest => .ok (.closed rest)
  | c :: rest =>
      if first then .ok (.item (c :: rest))
      else if c = ',' then
        match skipBlanks rest with
        | [] => .error (.here .eofInValue [])
        | ']' :: rest => .error (.here .trailingComma (']' :: rest))
        | rest => .ok (.item rest)
      else .error (.here .expectedCommaOrBracket (c :: rest))

/-- Reads the closing bracket behind the last element that an array can have. -/
def closeElements (text : List Char) : Except Failure (List Char) :=
  match skipBlanks text with
  | [] => .error (.here .eofInList [])
  | ']' :: rest => .ok rest
  | ',' :: rest =>
      match skipBlanks rest with
      | ']' :: rest => .error (.here .trailingComma (']' :: rest))
      | rest => .error (.here .trailingCharacters rest)
  | rest => .error (.here .trailingCharacters rest)

/-- Reads the elements of an array, which set the given fields in their order. -/
def readElements (first : Bool) (settings : Settings) (text : List Char) :
    List Field → Except Failure (Settings × List Char)
  | [] => (closeElements text).map fun rest => (settings, rest)
  | field :: fields =>
      match nextElement first text with
      | .error failure => .error failure
      | .ok (.closed rest) => .ok (settings, rest)
      | .ok (.item rest) =>
          (readField settings rest field).bind fun (settings, rest) =>
            readElements false settings rest fields

def readSettings (text : List Char) : Except Failure (Settings × List Char) :=
  match skipBlanks text with
  | [] => .error (.here .eofInValue [])
  | '[' :: rest => readElements true .none rest Field.all
  | '\x7b' :: rest => readMembers true .none rest
  | rest => .error (mismatch "struct CorpusConfig" rest)

/-- Reads a text that holds options and nothing else. -/
def read (text : List Char) : Except Failure CorpusConfig :=
  (readSettings text).bind fun (settings, rest) =>
    match skipBlanks rest with
    | [] => .ok settings.complete
    | rest => .error (.here .trailingCharacters rest)

/-- The options that a JSON text sets. -/
def parse (text : String) : Except Fault CorpusConfig :=
  (read text.toList).mapError (·.inText text)

end ChoiceGrammar.CorpusConfig
