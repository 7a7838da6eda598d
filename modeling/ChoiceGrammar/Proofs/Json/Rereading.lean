import ChoiceGrammar.Proofs.Json.Compact

/-!
# Reading compact text back

A reader for compact text, and the values that it finds: those that were written. The reader of a
list or an object takes the reader of its items, or of its members, and goes from comma to comma.
-/

namespace ChoiceGrammar.Json

variable {α : Type} {close : Char} {read : List Char → Option (α × List Char)}
  {write : α → List Char} {rest : List Char}

/-- Reads what follows an item up to the closing bracket, no more items than `fuel`. -/
def readMore (close : Char) (read : List Char → Option (α × List Char)) :
    (fuel : Nat) → List Char → Option (List α × List Char)
  | 0, _ => none
  | _ + 1, [] => none
  | fuel + 1, c :: text =>
      if c = close then some ([], text)
      else if c = ',' then
        (read text).bind fun (item, text) =>
          (readMore close read fuel text).map fun (items, rest) => (item :: items, rest)
      else none

/-- Reads items with commas between them up to the closing bracket, as if the first one had a comma
before it too. -/
def readSeries (close : Char) (read : List Char → Option (α × List Char)) (fuel : Nat)
    (text : List Char) : Option (List α × List Char) :=
  if text.head? = some close then some ([], text.tail) else readMore close read fuel (',' :: text)

/-- The text of what follows an item up to the closing bracket. -/
def moreChars (close : Char) (write : α → List Char) (items : List α) : List Char :=
  items.flatMap (fun item => ',' :: write item) ++ [close]

/-- The text of items with commas between them up to the closing bracket. -/
def seriesChars (close : Char) (write : α → List Char) : List α → List Char
  | [] => [close]
  | item :: items => write item ++ moreChars close write items

theorem moreChars_cons (item : α) (items : List α) :
    moreChars close write (item :: items) = ',' :: (write item ++ moreChars close write items) := by
  simp [moreChars]

theorem endsDigits_moreChars (hclose : close.isDigit = false) (items : List α) (rest : List Char) :
    EndsDigits (moreChars close write items ++ rest) := by
  cases items with
  | nil => simpa [moreChars, EndsDigits] using hclose
  | cons item items => simp [moreChars_cons, EndsDigits]

theorem length_lt_moreChars (items : List α) :
    items.length < (moreChars close write items).length := by
  induction items with
  | nil => simp [moreChars]
  | cons item items ih =>
      rw [moreChars_cons, List.length_cons, List.length_cons, List.length_append]
      omega

theorem readMore_append (hclose : close ∈ [']', '\x7d']) {items : List α}
    (hread : ∀ item ∈ items, ∀ rest, EndsDigits rest →
      read (write item ++ rest) = some (item, rest))
    {fuel : Nat} (hfuel : items.length < fuel) :
    readMore close read fuel (moreChars close write items ++ rest) = some (items, rest) := by
  have hends : close.isDigit = false ∧ ',' ≠ close := by
    have hall : ∀ close ∈ [']', '\x7d'], close.isDigit = false ∧ ',' ≠ close := by simp
    exact hall close hclose
  induction items generalizing fuel with
  | nil =>
      obtain ⟨fuel, rfl⟩ := Nat.exists_eq_add_one_of_ne_zero (Nat.ne_zero_of_lt hfuel)
      simp [moreChars, readMore]
  | cons item items ih =>
      obtain ⟨fuel, rfl⟩ := Nat.exists_eq_add_one_of_ne_zero (Nat.ne_zero_of_lt hfuel)
      obtain ⟨hitem, hitems⟩ := List.forall_mem_cons.mp hread
      have hnext : EndsDigits (moreChars close write items ++ rest) :=
        endsDigits_moreChars hends.1 items rest
      have hread := hitem _ hnext
      have hmore := ih hitems (Nat.lt_of_succ_lt_succ hfuel)
      rw [moreChars_cons, List.cons_append, List.append_assoc, readMore, if_neg hends.2, if_pos rfl]
      simp only [hread, hmore, Option.bind_some, Option.map_some]

theorem length_write_lt {items : List α} {item : α} (h : item ∈ items) :
    (write item).length < (moreChars close write items).length := by
  induction items with
  | nil => simp at h
  | cons first items ih =>
      rw [moreChars_cons, List.length_cons, List.length_append]
      rcases List.mem_cons.mp h with rfl | h
      · omega
      · have hmore := ih h
        omega

theorem length_write_le {items : List α} {item : α} (h : item ∈ items) :
    (write item).length ≤ (seriesChars close write items).length := by
  cases items with
  | nil => simp at h
  | cons first items =>
      rw [seriesChars, List.length_append]
      rcases List.mem_cons.mp h with rfl | h
      · omega
      · have hmore : (write item).length < (moreChars close write items).length :=
          length_write_lt h
        omega

theorem readSeries_append (hclose : close ∈ [']', '\x7d']) {items : List α}
    (hread : ∀ item ∈ items, ∀ rest, EndsDigits rest →
      read (write item ++ rest) = some (item, rest))
    (hhead : ∀ item ∈ items, ∃ c tail, write item = c :: tail ∧ c ≠ close)
    {fuel : Nat} (hfuel : (seriesChars close write items).length ≤ fuel) :
    readSeries close read fuel (seriesChars close write items ++ rest) = some (items, rest) := by
  cases items with
  | nil => simp [readSeries, seriesChars]
  | cons item items =>
      obtain ⟨c, tail, hitem, hc⟩ := hhead item (by simp)
      have hlength : items.length < (moreChars close write items).length :=
        length_lt_moreChars items
      have hcount : (item :: items).length < fuel := by
        simp only [seriesChars, hitem, List.length_append, List.length_cons] at hfuel ⊢
        omega
      have hmore : readMore close read fuel (moreChars close write (item :: items) ++ rest) =
          some (item :: items, rest) := readMore_append hclose hread hcount
      rw [moreChars_cons, List.cons_append, List.append_assoc] at hmore
      rw [readSeries, seriesChars, List.append_assoc, if_neg (by simp [hitem, hc]), hmore]

namespace Value

/-- Reads a number from its digits, if there are any. -/
def readDecimal (text : List Char) : Option (Value × List Char) :=
  match text.takeWhile Char.isDigit with
  | [] => none
  | digits => some (number (Nat.ofDigitChars 10 digits 0), text.dropWhile Char.isDigit)

def readQuoted (text : List Char) : Option (String × List Char) :=
  match text with
  | '"' :: rest => (readString rest).toOption
  | _ => none

/-- Reads a member where `read` reads its value. -/
def readMember (read : List Char → Option (Value × List Char)) (text : List Char) :
    Option ((String × Value) × List Char) :=
  (readQuoted text).bind fun (key, text) =>
    match text with
    | ':' :: text => (read text).map fun (value, rest) => ((key, value), rest)
    | _ => none

/-- Reads a value without blanks, nested no deeper than `fuel`. -/
def readCompact : (fuel : Nat) → List Char → Option (Value × List Char)
  | 0, _ => none
  | fuel + 1, text =>
      match text with
      | 'n' :: rest => (readWord "ull".toList rest).toOption.map fun rest => (null, rest)
      | 't' :: rest => (readWord "rue".toList rest).toOption.map fun rest => (bool true, rest)
      | 'f' :: rest => (readWord "alse".toList rest).toOption.map fun rest => (bool false, rest)
      | '[' :: rest => (readSeries ']' (readCompact fuel) fuel rest).map
          fun (items, rest) => (array items, rest)
      | '\x7b' :: rest => (readSeries '\x7d' (readMember (readCompact fuel)) fuel rest).map
          fun (members, rest) => (object members, rest)
      | '"' :: _ => (readQuoted text).map fun (text, rest) => (string text, rest)
      | _ => readDecimal text

/-- The value that a compact text stands for. -/
def ofCompact? (text : String) : Option Value :=
  match readCompact text.length text.toList with
  | some (value, []) => some value
  | _ => none

theorem readDecimal_toDigits (n : Nat) (hrest : EndsDigits rest) :
    readDecimal (Nat.toDigits 10 n ++ rest) = some (number n, rest) := by
  obtain ⟨⟨hne, hdigits⟩, -⟩ := wholeDigits_toDigits n
  obtain ⟨htake, hdrop⟩ := takeWhile_digits hdigits hrest
  rw [readDecimal, htake, hdrop]
  split
  · next hnil => exact absurd hnil hne
  · rw [Nat.ofDigitChars_ten_toDigits]

theorem readQuoted_append (text : String) (rest : List Char) :
    readQuoted (quotedChars text ++ rest) = some (text, rest) := by
  rw [quotedChars, List.cons_append, List.append_assoc]
  show (readString _).toOption = _
  rw [List.singleton_append, readString_spells (spells_escape text.toList)]
  simp [Except.toOption]

/-- The text of a member. -/
def memberText (member : String × Value) : List Char :=
  quotedChars member.1 ++ ':' :: member.2.chars

theorem itemChars_eq (items : List Value) : itemChars items = moreChars ']' chars items := by
  induction items with
  | nil => rfl
  | cons item items ih => rw [itemChars, moreChars_cons, ih]

theorem memberChars_eq (members : List (String × Value)) :
    memberChars members = moreChars '\x7d' memberText members := by
  induction members with
  | nil => rfl
  | cons member members ih => simp [memberChars, moreChars_cons, memberText, ih]

theorem chars_array (items : List Value) :
    (array items).chars = '[' :: seriesChars ']' chars items := by
  cases items with
  | nil => rfl
  | cons item items => rw [chars, seriesChars, itemChars_eq]

theorem chars_object (members : List (String × Value)) :
    (object members).chars = '\x7b' :: seriesChars '\x7d' memberText members := by
  cases members with
  | nil => rfl
  | cons member members => simp [chars, seriesChars, memberText, memberChars_eq]

theorem readMember_memberText {member : String × Value}
    {read : List Char → Option (Value × List Char)}
    (h : read (member.2.chars ++ rest) = some (member.2, rest)) :
    readMember read (memberText member ++ rest) = some (member, rest) := by
  rw [readMember, memberText, List.append_assoc, readQuoted_append]
  simp [h]

theorem readCompact_array {items : List Value} {fuel : Nat}
    (h : readSeries ']' (readCompact fuel) fuel (seriesChars ']' chars items ++ rest) =
      some (items, rest)) :
    readCompact (fuel + 1) ((array items).chars ++ rest) = some (array items, rest) := by
  rw [chars_array, List.cons_append, readCompact]
  simp [h]

theorem readCompact_object {members : List (String × Value)} {fuel : Nat}
    (h : readSeries '\x7d' (readMember (readCompact fuel)) fuel
      (seriesChars '\x7d' memberText members ++ rest) = some (members, rest)) :
    readCompact (fuel + 1) ((object members).chars ++ rest) = some (object members, rest) := by
  rw [chars_object, List.cons_append, readCompact]
  simp [h]

theorem readCompact_number (n fuel : Nat) (hrest : EndsDigits rest) :
    readCompact (fuel + 1) ((number n).chars ++ rest) = some (number n, rest) := by
  have hdecimal := readDecimal_toDigits n hrest
  obtain ⟨c, tail, hn, hc⟩ := (wholeDigits_toDigits n).1.head
  rw [hn, List.cons_append] at hdecimal
  rw [chars, hn, List.cons_append]
  unfold readCompact
  split
  · next heq => exact absurd (List.cons.inj heq).1 (ne_of_isDigit hc (by decide))
  · next heq => exact absurd (List.cons.inj heq).1 (ne_of_isDigit hc (by decide))
  · next heq => exact absurd (List.cons.inj heq).1 (ne_of_isDigit hc (by decide))
  · next heq => exact absurd (List.cons.inj heq).1 (ne_of_isDigit hc (by decide))
  · next heq => exact absurd (List.cons.inj heq).1 (ne_of_isDigit hc (by decide))
  · next heq => exact absurd (List.cons.inj heq).1 (ne_of_isDigit hc (by decide))
  · exact hdecimal

/-- A value is read back from its compact text. -/
theorem readCompact_chars (value : Value) {fuel : Nat} (hfuel : value.chars.length ≤ fuel)
    (hrest : EndsDigits rest) : readCompact fuel (value.chars ++ rest) = some (value, rest) := by
  induction fuel generalizing value rest with
  | zero =>
      obtain ⟨c, tail, htext, -⟩ := (valid_chars value).head_value
      simp [htext] at hfuel
  | succ fuel ih =>
      cases value with
      | null => simp [chars, readCompact, readWord, Except.toOption]
      | bool value =>
          cases value with
          | true => simp [chars, readCompact, readWord, Except.toOption]
          | false => simp [chars, readCompact, readWord, Except.toOption]
      | number n => exact readCompact_number n fuel hrest
      | string text =>
          rw [chars]
          show (readQuoted (quotedChars text ++ rest)).map _ = _
          rw [readQuoted_append]
          rfl
      | array items =>
          have hseries : (seriesChars ']' chars items).length ≤ fuel := by
            simpa [chars_array] using hfuel
          have hread : ∀ item ∈ items, ∀ rest, EndsDigits rest →
              readCompact fuel (item.chars ++ rest) = some (item, rest) := by
            intro item hitem rest
            exact ih item (Nat.le_trans (length_write_le hitem) hseries)
          have hhead : ∀ item ∈ items, ∃ c tail, item.chars = c :: tail ∧ c ≠ ']' := by
            intro item _
            obtain ⟨c, tail, htext, -, hc⟩ := (valid_chars item).head_value
            exact ⟨c, tail, htext, hc⟩
          exact readCompact_array (readSeries_append (by simp) hread hhead hseries)
      | object members =>
          have hseries : (seriesChars '\x7d' memberText members).length ≤ fuel := by
            simpa [chars_object] using hfuel
          have hread : ∀ member ∈ members, ∀ rest, EndsDigits rest →
              readMember (readCompact fuel) (memberText member ++ rest) = some (member, rest) := by
            intro member hmember rest hrest
            have hmember := Nat.le_trans (length_write_le hmember) hseries
            have hvalue : member.2.chars.length ≤ fuel := by
              simp only [memberText, List.length_append, List.length_cons] at hmember
              omega
            exact readMember_memberText (ih member.2 hvalue hrest)
          have hhead : ∀ member ∈ members, ∃ c tail, memberText member = c :: tail ∧ c ≠ '\x7d' := by
            intro member _
            exact ⟨'"', _, rfl, by decide⟩
          exact readCompact_object (readSeries_append (by simp) hread hhead hseries)

theorem ofCompact?_compact (value : Value) : ofCompact? value.compact = some value := by
  have hends : EndsDigits [] := by simp [EndsDigits]
  have hread := readCompact_chars value (Nat.le_refl _) hends
  rw [List.append_nil] at hread
  rw [ofCompact?, compact, String.toList_ofList, String.length_ofList, hread]

end Value

end ChoiceGrammar.Json
