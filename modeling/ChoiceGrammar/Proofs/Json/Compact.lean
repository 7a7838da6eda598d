import Mathlib.Data.List.Basic
import ChoiceGrammar.Json.Value
import ChoiceGrammar.Proofs.Json.Passing

/-!
# Compact text

The compact text of a value is JSON, and the value can be read back from it. So values with the same
compact text are the same, their strings included, whatever characters these hold.
-/

namespace ChoiceGrammar.Json

theorem hexUnit_control {c : Char} (h : c.toNat < 0x20) :
    HexUnit ['0', '0', Nat.digitChar (c.toNat / 16), Nat.digitChar (c.toNat % 16)] c.toNat := by
  have hzero : HexDigit '0' 0 := by decide
  have hhigh : HexDigit (Nat.digitChar (c.toNat / 16)) (c.toNat / 16) := ⟨by omega, .inl rfl⟩
  have hlow : HexDigit (Nat.digitChar (c.toNat % 16)) (c.toNat % 16) := ⟨by omega, .inl rfl⟩
  have hsplit : ((0 * 16 + 0) * 16 + c.toNat / 16) * 16 + c.toNat % 16 = c.toNat := by omega
  have hunit := HexUnit.digits hzero hzero hhigh hlow
  rwa [hsplit] at hunit

theorem spellsChar_escape (c : Char) : SpellsChar (escape c) c := by
  unfold escape
  split
  iterate 7 exact .letter (by decide)
  · next hquote hbackslash _ _ _ _ _ =>
      by_cases hcontrol : c.toNat < 0x20
      · rw [if_pos hcontrol]
        exact .unit (hexUnit_control hcontrol)
      · rw [if_neg hcontrol]
        exact .plain ⟨hquote, hbackslash, Nat.not_lt.mp hcontrol⟩

theorem spells_escape (cs : List Char) : Spells (cs.flatMap escape) cs := by
  induction cs with
  | nil => exact .nil
  | cons c cs ih =>
      rw [List.flatMap_cons]
      exact .cons (spellsChar_escape c) ih

theorem wholeDigits_toDigits (n : Nat) : WholeDigits (Nat.toDigits 10 n) := by
  refine ⟨⟨Nat.toDigits_ne_nil, ?_⟩, ?_⟩
  · intro c hc
    exact Nat.isDigit_of_mem_toDigits (by decide) (by decide) hc
  · induction n using Nat.strongRecOn with
    | _ n ih =>
      by_cases hsmall : n < 10
      · rw [Nat.toDigits_of_lt_base hsmall]
        intro hzero
        simpa using hzero
      · intro hzero
        rw [Nat.toDigits_of_base_le (by decide) (Nat.not_lt.mp hsmall),
          List.head?_append_of_ne_nil _ Nat.toDigits_ne_nil] at hzero
        have htens := ih (n / 10) (by omega) hzero
        have hvalue : n / 10 = 0 := by
          rw [← Nat.ofDigitChars_ten_toDigits (n := n / 10), htens]
          rfl
        omega

namespace Value

/-- A property that passes from all items, or all members, to the whole holds throughout. -/
@[elab_as_elim]
theorem induct {P : Value → Prop} (null : P null) (bool : ∀ value, P (bool value))
    (number : ∀ value, P (number value)) (string : ∀ text, P (string text))
    (array : ∀ items, (∀ item ∈ items, P item) → P (array items))
    (object : ∀ members, (∀ member ∈ members, P member.2) → P (object members)) (value : Value) :
    P value := by
  refine @Value.rec P (fun items => ∀ item ∈ items, P item)
    (fun members => ∀ member ∈ members, P member.2) (fun member => P member.2) null bool number
    string array object ?_ ?_ ?_ ?_ ?_ value
  · simp
  · intro item items hitem hitems
    exact List.forall_mem_cons.mpr ⟨hitem, hitems⟩
  · simp
  · intro member members hmember hmembers
    exact List.forall_mem_cons.mpr ⟨hmember, hmembers⟩
  · intro key value hvalue
    exact hvalue

theorem valid_itemChars {items : List Value} (h : ∀ item ∈ items, Valid .value item.chars) :
    Valid .moreItems (itemChars items) := by
  induction items with
  | nil => exact .lastItem allBlank_nil
  | cons item items ih =>
      obtain ⟨hitem, hitems⟩ := List.forall_mem_cons.mp h
      rw [itemChars]
      exact @Valid.nextItem [] [] _ allBlank_nil allBlank_nil (.item hitem (ih hitems))

theorem valid_member (key : String) {value more : List Char} (h : Valid .value value)
    (hmore : Valid .moreMembers more) :
    Valid .members (quotedChars key ++ ':' :: (value ++ more)) := by
  have hmember := Valid.member (spells_escape key.toList).stringBody allBlank_nil allBlank_nil h
    hmore
  simpa [quotedChars] using hmember

theorem valid_memberChars {members : List (String × Value)}
    (h : ∀ member ∈ members, Valid .value member.2.chars) :
    Valid .moreMembers (memberChars members) := by
  induction members with
  | nil => exact .lastMember allBlank_nil
  | cons member members ih =>
      obtain ⟨hmember, hmembers⟩ := List.forall_mem_cons.mp h
      rw [memberChars]
      have hmore := valid_member member.1 hmember (ih hmembers)
      exact @Valid.nextMember [] [] _ allBlank_nil allBlank_nil hmore

theorem valid_chars (value : Value) : Valid .value value.chars := by
  induction value using induct with
  | null => exact .null
  | bool value => cases value with
    | true => exact .yes
    | false => exact .no
  | number n =>
      rw [chars]
      have hdigits := wholeDigits_toDigits n
      have hnumber := @NumberText.parts [] _ [] [] (by decide) hdigits .absent .absent
      simpa using Valid.number hnumber
  | string text => exact .string (spells_escape text.toList).stringBody
  | array items h =>
      cases items with
      | nil => exact .emptyList allBlank_nil
      | cons item items =>
          obtain ⟨hitem, hitems⟩ := List.forall_mem_cons.mp h
          rw [chars]
          exact @Valid.list [] _ allBlank_nil (.item hitem (valid_itemChars hitems))
  | object members h =>
      cases members with
      | nil => exact .emptyObject allBlank_nil
      | cons member members =>
          obtain ⟨hmember, hmembers⟩ := List.forall_mem_cons.mp h
          rw [chars]
          have hmember := valid_member member.1 hmember (valid_memberChars hmembers)
          exact @Valid.object [] _ allBlank_nil hmember

end Value

end ChoiceGrammar.Json
