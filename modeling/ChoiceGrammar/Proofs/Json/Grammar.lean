import Mathlib.Data.Nat.Notation

/-!
# The grammar of JSON text

Which texts are JSON values, and which texts between quotes spell given characters. A character may
stand for itself, be escaped by a letter, or be given by its UTF-16 units. A value that only has to
be valid may also have units in its strings that make no character.
-/

namespace ChoiceGrammar.Json

/-- Blanks may stand between any two parts of a JSON text. -/
def AllBlank (text : List Char) : Prop := ∀ c ∈ text, c ∈ [' ', '\t', '\n', '\r']

instance (text : List Char) : Decidable (AllBlank text) := List.decidableBAll _ text

/-- The letters behind a backslash and what they stand for. -/
def letterEscapes : List (Char × Char) :=
  [('"', '"'), ('\\', '\\'), ('/', '/'), ('b', '\x08'), ('f', '\x0c'), ('n', '\n'), ('r', '\r'),
    ('t', '\t')]

/-- A hexadecimal digit, its letter small or capital. -/
def HexDigit (c : Char) (value : ℕ) : Prop :=
  value < 16 ∧ (c = Nat.digitChar value ∨ c = (Nat.digitChar value).toUpper)

instance (c : Char) (value : ℕ) : Decidable (HexDigit c value) :=
  inferInstanceAs (Decidable (_ ∧ (_ ∨ _)))

/-- Four hexadecimal digits, the highest first. -/
inductive HexUnit : List Char → ℕ → Prop where
  | digits {c₃ c₂ c₁ c₀ : Char} {n₃ n₂ n₁ n₀ : ℕ} (h₃ : HexDigit c₃ n₃) (h₂ : HexDigit c₂ n₂)
      (h₁ : HexDigit c₁ n₁) (h₀ : HexDigit c₀ n₀) :
      HexUnit [c₃, c₂, c₁, c₀] (((n₃ * 16 + n₂) * 16 + n₁) * 16 + n₀)

/-- A character that may stand in a string as it is. -/
def Plain (c : Char) : Prop := c ≠ '"' ∧ c ≠ '\\' ∧ 0x20 ≤ c.toNat

instance (c : Char) : Decidable (Plain c) := inferInstanceAs (Decidable (_ ∧ _ ∧ _))

/-- The spellings of a character: past the first 65536 it has two UTF-16 units. -/
inductive SpellsChar : List Char → Char → Prop where
  | plain {c : Char} (h : Plain c) : SpellsChar [c] c
  | letter {letter c : Char} (h : (letter, c) ∈ letterEscapes) : SpellsChar ['\\', letter] c
  | unit {digits : List Char} {c : Char} (h : HexUnit digits c.toNat) :
      SpellsChar ('\\' :: 'u' :: digits) c
  | pair {high low : List Char} {c : Char} (hc : 0x10000 ≤ c.toNat)
      (hhigh : HexUnit high (0xD800 + (c.toNat - 0x10000) / 0x400))
      (hlow : HexUnit low (0xDC00 + (c.toNat - 0x10000) % 0x400)) :
      SpellsChar ('\\' :: 'u' :: (high ++ '\\' :: 'u' :: low)) c

/-- The spellings of a string between its quotes. -/
inductive Spells : List Char → List Char → Prop where
  | nil : Spells [] []
  | cons {text body : List Char} {c : Char} {cs : List Char} (hc : SpellsChar text c)
      (hcs : Spells body cs) : Spells (text ++ body) (c :: cs)

/-- What may stand between quotes: any units are allowed, also those that make no character. -/
inductive StringBody : List Char → Prop where
  | nil : StringBody []
  | plain {c : Char} {body : List Char} (hc : Plain c) (h : StringBody body) :
      StringBody (c :: body)
  | letter {letter c : Char} {body : List Char} (hc : (letter, c) ∈ letterEscapes)
      (h : StringBody body) : StringBody ('\\' :: letter :: body)
  | unit {digits body : List Char} {n : ℕ} (hn : HexUnit digits n) (h : StringBody body) :
      StringBody ('\\' :: 'u' :: (digits ++ body))

def Digits (text : List Char) : Prop := text ≠ [] ∧ ∀ c ∈ text, c.isDigit = true

instance (text : List Char) : Decidable (Digits text) :=
  @instDecidableAnd _ _ _ (List.decidableBAll _ text)

/-- The digits of a whole number, without a zero in front of others. -/
def WholeDigits (text : List Char) : Prop := Digits text ∧ (text.head? = some '0' → text = ['0'])

instance (text : List Char) : Decidable (WholeDigits text) :=
  inferInstanceAs (Decidable (_ ∧ (_ → _)))

inductive FractionPart : List Char → Prop where
  | absent : FractionPart []
  | digits {text : List Char} (h : Digits text) : FractionPart ('.' :: text)

inductive ExponentPart : List Char → Prop where
  | absent : ExponentPart []
  | digits {e : Char} {sign text : List Char} (he : e = 'e' ∨ e = 'E')
      (hsign : sign ∈ [[], ['+'], ['-']]) (h : Digits text) : ExponentPart (e :: (sign ++ text))

inductive NumberText : List Char → Prop where
  | parts {sign whole fraction exponent : List Char} (hsign : sign ∈ [[], ['-']])
      (hwhole : WholeDigits whole) (hfraction : FractionPart fraction)
      (hexponent : ExponentPart exponent) :
      NumberText (sign ++ (whole ++ (fraction ++ exponent)))

/-- What a piece of JSON text is. -/
inductive Phrase where
  | value
  /-- Items up to the closing bracket. -/
  | items
  /-- What follows an item, up to the closing bracket. -/
  | moreItems
  /-- Members up to the closing brace. -/
  | members
  /-- What follows a member, up to the closing brace. -/
  | moreMembers

/-- The JSON texts. Blanks stand only between the parts of a value, not around it. -/
inductive Valid : Phrase → List Char → Prop where
  | null : Valid .value "null".toList
  | yes : Valid .value "true".toList
  | no : Valid .value "false".toList
  | number {text : List Char} (h : NumberText text) : Valid .value text
  | string {body : List Char} (h : StringBody body) : Valid .value ('"' :: (body ++ ['"']))
  | emptyList {blanks : List Char} (hb : AllBlank blanks) :
      Valid .value ('[' :: (blanks ++ [']']))
  | list {blanks items : List Char} (hb : AllBlank blanks) (h : Valid .items items) :
      Valid .value ('[' :: (blanks ++ items))
  | emptyObject {blanks : List Char} (hb : AllBlank blanks) :
      Valid .value ('\x7b' :: (blanks ++ ['\x7d']))
  | object {blanks members : List Char} (hb : AllBlank blanks) (h : Valid .members members) :
      Valid .value ('\x7b' :: (blanks ++ members))
  | item {item more : List Char} (h : Valid .value item) (hmore : Valid .moreItems more) :
      Valid .items (item ++ more)
  | lastItem {blanks : List Char} (hb : AllBlank blanks) : Valid .moreItems (blanks ++ [']'])
  | nextItem {blanks blanks' items : List Char} (hb : AllBlank blanks) (hb' : AllBlank blanks')
      (h : Valid .items items) : Valid .moreItems (blanks ++ ',' :: (blanks' ++ items))
  | member {key blanks blanks' value more : List Char} (hkey : StringBody key)
      (hb : AllBlank blanks) (hb' : AllBlank blanks') (h : Valid .value value)
      (hmore : Valid .moreMembers more) :
      Valid .members ('"' :: (key ++ '"' :: (blanks ++ ':' :: (blanks' ++ (value ++ more)))))
  | lastMember {blanks : List Char} (hb : AllBlank blanks) :
      Valid .moreMembers (blanks ++ ['\x7d'])
  | nextMember {blanks blanks' members : List Char} (hb : AllBlank blanks)
      (hb' : AllBlank blanks') (h : Valid .members members) :
      Valid .moreMembers (blanks ++ ',' :: (blanks' ++ members))

@[simp] theorem allBlank_nil : AllBlank [] := by simp [AllBlank]

theorem Digits.head {text : List Char} (h : Digits text) :
    ∃ c tail, text = c :: tail ∧ c.isDigit = true := by
  obtain ⟨hne, hdigits⟩ := h
  obtain ⟨c, tail, rfl⟩ := List.exists_cons_of_ne_nil hne
  exact ⟨c, tail, rfl, hdigits c (by simp)⟩

theorem Spells.plain {cs : List Char} (h : cs.all (Plain ·) = true) : Spells cs cs := by
  induction cs with
  | nil => exact .nil
  | cons c cs ih =>
      obtain ⟨hc, hcs⟩ : Plain c ∧ cs.all (Plain ·) = true := by simpa using h
      exact .cons (.plain hc) (ih hcs)

theorem Spells.stringBody {body cs : List Char} (h : Spells body cs) : StringBody body := by
  induction h with
  | nil => exact .nil
  | cons hc _ ih =>
      cases hc with
      | plain h => exact .plain h ih
      | letter h => exact .letter h ih
      | unit h => exact .unit h ih
      | pair _ hhigh hlow =>
          have hpair := StringBody.unit hhigh (.unit hlow ih)
          simpa using hpair

end ChoiceGrammar.Json
