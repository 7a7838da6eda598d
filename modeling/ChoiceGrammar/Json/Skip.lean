import ChoiceGrammar.Json.Number

/-!
# Passing over a JSON value

A value that nobody asks for is passed over without being kept. The brackets that are open stand on
a stack, so that values may nest to any depth. Each step reads a scalar or a bracket, with the
comma and the key before it.
-/

namespace ChoiceGrammar.Json

inductive Bracket where
  | list
  | object

/-- Where a value stands that is being passed over. -/
inductive SkipState where
  /-- A value is due inside the brackets. -/
  | value (outer : List Bracket)
  /-- The bracket has just been opened. -/
  | opened (bracket : Bracket) (outer : List Bracket)
  /-- A value inside the bracket has ended. -/
  | more (bracket : Bracket) (outer : List Bracket)

/-- What follows the end of a value: nothing outside all brackets. -/
def afterValue : List Bracket → Option SkipState
  | [] => none
  | bracket :: outer => some (.more bracket outer)

def skipScalar (text : List Char) : Except Failure (List Char) :=
  match text with
  | [] => .error (.here .eofInValue [])
  | 'n' :: rest => readWord "ull".toList rest
  | 't' :: rest => readWord "rue".toList rest
  | 'f' :: rest => readWord "alse".toList rest
  | '"' :: rest => skipString rest
  | c :: rest =>
      if c = '-' ∨ c.isDigit then skipNumber (c :: rest)
      else .error (.here .expectedValue (c :: rest))

/-- Enters a value that begins with the next character. -/
def skipValueStart (outer : List Bracket) (text : List Char) :
    Except Failure (Option SkipState × List Char) :=
  match text with
  | '[' :: rest => .ok (some (.opened .list outer), rest)
  | '\x7b' :: rest => .ok (some (.opened .object outer), rest)
  | _ => (skipScalar text).map fun rest => (afterValue outer, rest)

def readColon (text : List Char) : Except Failure (List Char) :=
  match skipBlanks text with
  | [] => .error (.here .eofInObject [])
  | ':' :: rest => .ok rest
  | rest => .error (.here .expectedColon rest)

def skipKey (text : List Char) : Except Failure (List Char) :=
  match skipBlanks text with
  | [] => .error (.here .eofInObject [])
  | '"' :: rest => (skipString rest).bind readColon
  | rest => .error (.here .keyNotString rest)

def skipStep (state : SkipState) (text : List Char) :
    Except Failure (Option SkipState × List Char) :=
  let text := skipBlanks text
  match state with
  | .value outer => skipValueStart outer text
  | .opened .list outer =>
      match text with
      | [] => .error (.here .eofInList [])
      | ']' :: rest => .ok (afterValue outer, rest)
      | text => skipValueStart (.list :: outer) text
  | .opened .object outer =>
      match text with
      | [] => .error (.here .eofInObject [])
      | '\x7d' :: rest => .ok (afterValue outer, rest)
      | text => (skipKey text).map fun rest => (some (.value (.object :: outer)), rest)
  | .more .list outer =>
      match text with
      | [] => .error (.here .eofInList [])
      | ',' :: rest => .ok (some (.value (.list :: outer)), rest)
      | ']' :: rest => .ok (afterValue outer, rest)
      | text => .error (.here .expectedCommaOrBracket text)
  | .more .object outer =>
      match text with
      | [] => .error (.here .eofInObject [])
      | ',' :: rest => (skipKey rest).map fun rest => (some (.value (.object :: outer)), rest)
      | '\x7d' :: rest => .ok (afterValue outer, rest)
      | text => .error (.here .expectedCommaOrBrace text)

theorem length_skipScalar_lt {text rest : List Char} (h : skipScalar text = .ok rest) :
    rest.length < text.length := by
  unfold skipScalar at h
  split at h
  · simp at h
  all_goals try exact Nat.lt_succ_of_le (length_readWord_le h)
  · exact Nat.lt_succ_of_lt (length_skipString_lt h)
  · split at h
    · exact length_skipNumber_lt h
    · simp at h

theorem length_skipValueStart_lt {outer : List Bracket} {text rest : List Char}
    {state : Option SkipState} (h : skipValueStart outer text = .ok (state, rest)) :
    rest.length < text.length := by
  unfold skipValueStart at h
  split at h
  · simp at h; simp [h.2]
  · simp at h; simp [h.2]
  · obtain ⟨_, hs, he⟩ := map_eq_ok_iff.mp h
    cases he
    exact length_skipScalar_lt hs

theorem length_readColon_lt {text rest : List Char} (h : readColon text = .ok rest) :
    rest.length < text.length := by
  have hb := length_skipBlanks_le text
  unfold readColon at h
  split at h
  · simp at h
  · next ht => simp at h; simp [ht, h] at hb; omega
  · simp at h

theorem length_skipKey_lt {text rest : List Char} (h : skipKey text = .ok rest) :
    rest.length < text.length := by
  have hb := length_skipBlanks_le text
  unfold skipKey at h
  split at h
  · simp at h
  · next inner ht =>
      obtain ⟨_, hs, hc⟩ := bind_eq_ok_iff.mp h
      have := length_skipString_lt hs
      have := length_readColon_lt hc
      simp only [ht, List.length_cons] at hb
      omega
  · simp at h

theorem length_skipStep_lt {state : SkipState} {text rest : List Char} {next : Option SkipState}
    (h : skipStep state text = .ok (next, rest)) : rest.length < text.length := by
  have hb := length_skipBlanks_le text
  have key : ∀ {t : List Char} {outer : List Bracket},
      (skipKey t).map (fun rest => (some (SkipState.value outer), rest)) = .ok (next, rest) →
      rest.length < t.length := by
    intro t outer h
    obtain ⟨_, hk, he⟩ := map_eq_ok_iff.mp h
    cases he
    exact length_skipKey_lt hk
  unfold skipStep at h
  dsimp only at h
  split at h
  · exact Nat.lt_of_lt_of_le (length_skipValueStart_lt h) hb
  all_goals
    split at h
    · simp at h
  · next ht => simp at h; simp [ht, h.2] at hb; omega
  · exact Nat.lt_of_lt_of_le (length_skipValueStart_lt h) hb
  · next ht => simp at h; simp [ht, h.2] at hb; omega
  · exact Nat.lt_of_lt_of_le (key h) hb
  · next ht => simp at h; simp [ht, h.2] at hb; omega
  · next ht => simp at h; simp [ht, h.2] at hb; omega
  · simp at h
  · next ht => have := key h; simp [ht] at hb; omega
  · next ht => simp at h; simp [ht, h.2] at hb; omega
  · simp at h

def skipFrom (state : SkipState) (text : List Char) : Except Failure (List Char) :=
  match _h : skipStep state text with
  | .error failure => .error failure
  | .ok (none, rest) => .ok rest
  | .ok (some next, rest) => skipFrom next rest
termination_by text.length
decreasing_by exact length_skipStep_lt _h

def skipValue (text : List Char) : Except Failure (List Char) := skipFrom (.value []) text

theorem length_skipFrom_lt {state : SkipState} {text rest : List Char}
    (h : skipFrom state text = .ok rest) : rest.length < text.length := by
  fun_induction skipFrom state text with
  | case1 => simp at h
  | case2 state text behind hs =>
      simp only [Except.ok.injEq] at h
      exact h ▸ length_skipStep_lt hs
  | case3 state text next behind hs ih => exact Nat.lt_trans (ih h) (length_skipStep_lt hs)

theorem length_skipValue_lt {text rest : List Char} (h : skipValue text = .ok rest) :
    rest.length < text.length := length_skipFrom_lt h

end ChoiceGrammar.Json
