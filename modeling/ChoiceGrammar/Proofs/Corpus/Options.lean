import Mathlib.Data.List.Duplicate
import ChoiceGrammar.Corpus.Basic
import ChoiceGrammar.Proofs.Json.Passing

/-!
# Options by name

The members of an object may set each option once, in any order, among members of any other name.
What such an object sets is found whatever its layout, and a field that is set twice is refused.
-/

namespace ChoiceGrammar.CorpusConfig

open Json

/-- An option with the value that a member gives it. -/
inductive Setting where
  | commentMark (mark : Char)
  | skipBlankLines (skip : Bool)
  | maxDepth (depth : UInt64)

namespace Setting

def field : Setting → Field
  | commentMark _ => .commentMark
  | skipBlankLines _ => .skipBlankLines
  | maxDepth _ => .maxDepth

/-- The options with one of them replaced. -/
def replaceIn (config : CorpusConfig) : Setting → CorpusConfig
  | commentMark mark => { config with commentMark := mark }
  | skipBlankLines skip => { config with skipBlankLines := skip }
  | maxDepth depth => { config with maxDepth := depth }

/-- The texts of the value of a setting. -/
inductive Written : Setting → List Char → Prop where
  | commentMark {mark : Char} {body : List Char} (h : Spells body [mark]) :
      Written (.commentMark mark) ('"' :: (body ++ ['"']))
  | yes : Written (.skipBlankLines true) "true".toList
  | no : Written (.skipBlankLines false) "false".toList
  | maxDepth {depth : UInt64} {digits : List Char} (h : WholeDigits digits)
      (hvalue : Nat.ofDigitChars 10 digits 0 = depth.toNat) : Written (.maxDepth depth) digits

end Setting

/-- The texts of a member, with what it sets. A member of another name sets nothing. -/
inductive Member : Option Setting → List Char → Prop where
  | known {setting : Setting} {key blanks blanks' value : List Char}
      (hkey : Spells key setting.field.name.toList) (hb : AllBlank blanks)
      (hb' : AllBlank blanks') (h : setting.Written value) :
      Member (some setting) ('"' :: (key ++ '"' :: (blanks ++ ':' :: (blanks' ++ value))))
  | other {name : String} {key blanks blanks' value : List Char}
      (hkey : Spells key name.toList) (hname : ∀ field : Field, field.name ≠ name)
      (hb : AllBlank blanks) (hb' : AllBlank blanks') (h : Valid .value value) :
      Member none ('"' :: (key ++ '"' :: (blanks ++ ':' :: (blanks' ++ value))))

/-- The texts of one or more members up to the closing brace, with what they set in their order. -/
inductive Members : List Setting → List Char → Prop where
  | last {setting : Option Setting} {member blanks : List Char} (h : Member setting member)
      (hb : AllBlank blanks) : Members setting.toList (member ++ (blanks ++ ['\x7d']))
  | next {setting : Option Setting} {settings : List Setting}
      {member blanks blanks' members : List Char} (h : Member setting member)
      (hb : AllBlank blanks) (hb' : AllBlank blanks') (hmembers : Members settings members) :
      Members (setting.toList ++ settings) (member ++ (blanks ++ ',' :: (blanks' ++ members)))

/-- The texts of an object, with what its members set in their order. -/
inductive ObjectText : List Setting → List Char → Prop where
  | empty {before blanks after : List Char} (hbefore : AllBlank before) (hb : AllBlank blanks)
      (hafter : AllBlank after) : ObjectText [] (before ++ '\x7b' :: (blanks ++ '\x7d' :: after))
  | members {settings : List Setting} {before blanks members after : List Char}
      (hbefore : AllBlank before) (hb : AllBlank blanks) (h : Members settings members)
      (hafter : AllBlank after) :
      ObjectText settings (before ++ '\x7b' :: (blanks ++ (members ++ after)))

namespace Settings

def set (settings : Settings) : Setting → Settings
  | .commentMark mark => { settings with commentMark := some mark }
  | .skipBlankLines skip => { settings with skipBlankLines := some skip }
  | .maxDepth depth => { settings with maxDepth := some depth }

/-- Sets the options in their order. The first field that has been set before is refused. -/
def setAll (settings : Settings) : List Setting → Except Field Settings
  | [] => .ok settings
  | setting :: more =>
      if settings.has setting.field then .error setting.field
      else (settings.set setting).setAll more

theorem setAll_append (settings : Settings) (sets more : List Setting) :
    settings.setAll (sets ++ more) = (settings.setAll sets).bind (·.setAll more) := by
  induction sets generalizing settings with
  | nil => rfl
  | cons setting sets ih =>
      rw [List.cons_append, setAll, setAll]
      by_cases hhas : settings.has setting.field = true
      · rw [if_pos hhas, if_pos hhas]
        rfl
      · rw [if_neg hhas, if_neg hhas, ih]

theorem has_set (settings : Settings) (setting : Setting) (field : Field) :
    (settings.set setting).has field = true ↔
      setting.field = field ∨ settings.has field = true := by
  cases setting <;> cases field <;> simp [set, has, Setting.field]

theorem complete_set (settings : Settings) (setting : Setting) :
    (settings.set setting).complete = setting.replaceIn settings.complete := by
  cases setting <;> rfl

theorem complete_foldl_set (settings : Settings) (sets : List Setting) :
    (sets.foldl set settings).complete = sets.foldl Setting.replaceIn settings.complete := by
  induction sets generalizing settings with
  | nil => rfl
  | cons setting sets ih => rw [List.foldl_cons, ih, complete_set, List.foldl_cons]

theorem setAll_of_nodup {settings : Settings} {sets : List Setting}
    (hnodup : (sets.map Setting.field).Nodup)
    (hfresh : ∀ setting ∈ sets, settings.has setting.field = false) :
    settings.setAll sets = .ok (sets.foldl set settings) := by
  induction sets generalizing settings with
  | nil => rfl
  | cons setting sets ih =>
      obtain ⟨hnot, hnodup⟩ := List.nodup_cons.mp hnodup
      have hfresh' : ∀ other ∈ sets, (settings.set setting).has other.field = false := by
        intro other hother
        apply Bool.eq_false_iff.mpr
        intro hhas
        rcases (has_set settings setting other.field).mp hhas with heq | hhas
        · exact hnot (heq ▸ List.mem_map_of_mem hother)
        · simp [hfresh other (by simp [hother])] at hhas
      rw [setAll, if_neg (by simp [hfresh setting]), ih hnodup hfresh', List.foldl_cons]

theorem nodup_of_setAll {settings settings' : Settings} {sets : List Setting}
    (h : settings.setAll sets = .ok settings') : (sets.map Setting.field).Nodup ∧
      ∀ setting ∈ sets, settings.has setting.field = false := by
  induction sets generalizing settings with
  | nil => simp
  | cons setting sets ih =>
      rw [setAll] at h
      split at h
      · cases h
      · next hhas =>
          obtain ⟨hnodup, hfresh⟩ := ih h
          have hother : ∀ other ∈ sets,
              other.field ≠ setting.field ∧ settings.has other.field = false := by
            intro other hmem
            have hnot : ¬ (settings.set setting).has other.field = true := by
              simp [hfresh other hmem]
            rw [has_set, not_or] at hnot
            exact ⟨Ne.symm hnot.1, by simpa using hnot.2⟩
          constructor
          · rw [List.map_cons, List.nodup_cons]
            refine ⟨?_, hnodup⟩
            intro hmem
            obtain ⟨other, hmem, heq⟩ := List.mem_map.mp hmem
            exact (hother other hmem).1 heq
          · intro other hmem
            rcases List.mem_cons.mp hmem with rfl | hmem
            · simpa using hhas
            · exact (hother other hmem).2

theorem two_le_of_setAll {settings : Settings} {sets : List Setting} {field : Field}
    (h : settings.setAll sets = .error field) :
    2 ≤ (settings.has field).toNat + (sets.map Setting.field).count field := by
  induction sets generalizing settings with
  | nil => cases h
  | cons setting sets ih =>
      rw [setAll] at h
      rw [List.map_cons]
      split at h
      · next hhas =>
          obtain rfl : setting.field = field := by simpa using h
          simp only [hhas, Bool.toNat_true, List.count_cons_self]
          omega
      · next hhas =>
          have hmore := ih h
          by_cases heq : setting.field = field
          · have hset := (has_set settings setting field).mpr (.inl heq)
            rw [heq, List.count_cons_self]
            simp only [hset, Bool.toNat_true] at hmore
            omega
          · have hset : (settings.set setting).has field = settings.has field := by
              rw [Bool.eq_iff_iff, has_set]
              simp [heq]
            rwa [List.count_cons_of_ne heq, ← hset]

end Settings

theorem Field.ofName?_name (field : Field) : Field.ofName? field.name = some field := by
  cases field <;> rfl

theorem Field.ofName?_other {name : String} (h : ∀ field : Field, field.name ≠ name) :
    Field.ofName? name = none := by
  simp [Field.ofName?, h]

variable {blanks rest : List Char} {settings : Settings}

theorem readChar_append {mark : Char} {body : List Char} (hb : AllBlank blanks)
    (h : Spells body [mark]) (rest : List Char) :
    readChar (blanks ++ ('"' :: (body ++ ['"']) ++ rest)) = .ok (mark, rest) := by
  rw [readChar, List.cons_append, skipBlanks_to hb (by decide), List.append_assoc]
  show (readString _).bind _ = _
  rw [List.singleton_append, readString_spells h]
  simp [Except.bind, onlyChar]

theorem readBool_true (hb : AllBlank blanks) (rest : List Char) :
    readBool (blanks ++ ("true".toList ++ rest)) = .ok (true, rest) := by
  have htext : skipBlanks (blanks ++ ("true".toList ++ rest)) = 't' :: ("rue".toList ++ rest) :=
    skipBlanks_to hb (by decide) _
  rw [readBool, htext]
  exact congrArg (Except.map _) (readWord_append _ rest)

theorem readBool_false (hb : AllBlank blanks) (rest : List Char) :
    readBool (blanks ++ ("false".toList ++ rest)) = .ok (false, rest) := by
  have htext : skipBlanks (blanks ++ ("false".toList ++ rest)) = 'f' :: ("alse".toList ++ rest) :=
    skipBlanks_to hb (by decide) _
  rw [readBool, htext]
  exact congrArg (Except.map _) (readWord_append _ rest)

theorem readSize_append {depth : UInt64} {digits : List Char} (hb : AllBlank blanks)
    (h : WholeDigits digits) (hvalue : Nat.ofDigitChars 10 digits 0 = depth.toNat)
    (hrest : EndsNumber rest) : readSize (blanks ++ (digits ++ rest)) = .ok (depth, rest) := by
  have hnumber := readNumber_whole h (hvalue ▸ depth.toNat_lt_size) hrest
  obtain ⟨c, tail, rfl, hc⟩ := h.1.head
  rw [List.cons_append] at hnumber ⊢
  rw [readSize, skipBlanks_to hb (isBlank_of_isDigit hc)]
  show (if _ then _ else _) = _
  rw [if_pos (.inr hc), hnumber, hvalue]
  simp [Except.bind, Number.toSize]

theorem readField_written {setting : Setting} {value : List Char} (h : setting.Written value)
    (hb : AllBlank blanks) (hrest : EndsNumber rest) :
    readField settings (blanks ++ (value ++ rest)) setting.field =
      .ok (settings.set setting, rest) := by
  cases h with
  | commentMark h =>
      rw [Setting.field, readField, readChar_append hb h]
      rfl
  | yes =>
      rw [Setting.field, readField, readBool_true hb]
      rfl
  | no =>
      rw [Setting.field, readField, readBool_false hb]
      rfl
  | maxDepth h hvalue =>
      rw [Setting.field, readField, readSize_append hb h hvalue hrest]
      rfl

/-- What reading comes to where the settings are set, or one of them is refused. -/
def Outcome (expected : Except Field Settings) (rest : List Char)
    (actual : Except Failure (Settings × List Char)) : Prop :=
  match expected with
  | .ok settings => actual = .ok (settings, rest)
  | .error field => ∃ unread, actual = .error ⟨.duplicateField field.name, unread⟩

theorem readMember_outcome {setting : Option Setting} {member : List Char}
    (h : Member setting member) (settings : Settings) (hrest : EndsNumber rest) :
    ∃ behind, member ++ rest = '"' :: behind ∧
      Outcome (settings.setAll setting.toList) rest (readMember settings behind) := by
  cases h with
  | @known setting key blanks blanks' value hkey hb hb' h =>
      refine ⟨key ++ '"' :: (blanks ++ ':' :: (blanks' ++ (value ++ rest))), by simp, ?_⟩
      rw [readMember, readString_spells hkey]
      simp only [Except.bind, String.ofList_toList, readMemberValue, Field.ofName?_name]
      rw [Option.toList_some, Settings.setAll]
      by_cases hhas : settings.has setting.field = true
      · rw [if_pos hhas, if_pos hhas]
        exact ⟨_, rfl⟩
      · rw [if_neg hhas, if_neg hhas, readColon_append hb]
        exact readField_written h hb' hrest
  | @other name key blanks blanks' value hkey hname hb hb' h =>
      refine ⟨key ++ '"' :: (blanks ++ ':' :: (blanks' ++ (value ++ rest))), by simp, ?_⟩
      rw [readMember, readString_spells hkey]
      simp only [Except.bind, String.ofList_toList, readMemberValue, Field.ofName?_other hname]
      rw [readColon_append hb]
      simp only [skipValue_of_valid hb' h hrest]
      rfl

theorem Outcome.bind {expected : Except Field Settings} {middle : List Char}
    {actual : Except Failure (Settings × List Char)} {more : Settings → Except Field Settings}
    {go : Settings → List Char → Except Failure (Settings × List Char)}
    (h : Outcome expected middle actual)
    (hmore : ∀ settings, Outcome (more settings) rest (go settings middle)) :
    Outcome (expected.bind more) rest (actual.bind fun (settings, rest) => go settings rest) := by
  cases expected with
  | ok settings =>
      obtain rfl : actual = .ok (settings, middle) := h
      exact hmore settings
  | error field =>
      obtain ⟨unread, rfl⟩ := h
      exact ⟨unread, rfl⟩

theorem readMembers_item {first : Bool} {text behind : List Char}
    (h : nextMember first text = .ok (.item behind)) :
    readMembers first settings text = (readMember settings behind).bind
      fun (settings, rest) => readMembers false settings rest := by
  rw [readMembers]
  split
  · next heq => simp [h] at heq
  · next heq => simp [h] at heq
  · next heq =>
      obtain rfl : behind = _ := by simpa [h] using heq
      split
      · next hread => rw [hread]; rfl
      · next hread => rw [hread]; rfl

theorem readMembers_closed {first : Bool} (hb : AllBlank blanks) :
    readMembers first settings (blanks ++ '\x7d' :: rest) = .ok (settings, rest) := by
  have hnext : nextMember first (blanks ++ '\x7d' :: rest) = .ok (.closed rest) := by
    rw [nextMember, skipBlanks_to hb (by decide)]
    rfl
  rw [readMembers]
  split
  · next heq => simp [hnext] at heq
  · next heq =>
      obtain rfl : rest = _ := by simpa [hnext] using heq
      rfl
  · next heq => simp [hnext] at heq

theorem readMembers_comma {blanks' behind : List Char} (hb : AllBlank blanks)
    (hb' : AllBlank blanks') :
    readMembers false settings (blanks ++ ',' :: (blanks' ++ '"' :: behind)) =
      (readMember settings behind).bind fun (settings, rest) =>
        readMembers false settings rest := by
  have hquote : skipBlanks (blanks' ++ '"' :: behind) = '"' :: behind :=
    skipBlanks_to hb' (by decide) behind
  apply readMembers_item
  rw [nextMember, skipBlanks_to hb (by decide)]
  simp [hquote]

/-- The members of an object set what they say, each after those before it. -/
theorem readMembers_outcome {sets : List Setting} {members : List Char} (h : Members sets members)
    (settings : Settings) (rest : List Char) : ∃ behind, members ++ rest = '"' :: behind ∧
      Outcome (settings.setAll sets) rest ((readMember settings behind).bind
        fun (settings, rest) => readMembers false settings rest) := by
  induction h generalizing settings with
  | @last setting member blanks h hb =>
      have hends : EndsNumber (blanks ++ '\x7d' :: rest) := endsNumber_blanks hb (by simp) rest
      obtain ⟨behind, htext, hread⟩ := readMember_outcome h settings hends
      refine ⟨behind, by simpa using htext, ?_⟩
      rw [← List.append_nil setting.toList, Settings.setAll_append]
      exact hread.bind fun settings => readMembers_closed hb
  | @next setting sets member blanks blanks' members h hb hb' _ ih =>
      have hends : EndsNumber (blanks ++ ',' :: (blanks' ++ (members ++ rest))) :=
        endsNumber_blanks hb (by simp) _
      obtain ⟨behind, htext, hread⟩ := readMember_outcome h settings hends
      refine ⟨behind, by simpa using htext, ?_⟩
      rw [Settings.setAll_append]
      apply hread.bind
      intro settings
      obtain ⟨behind, htext, hmore⟩ := ih settings
      rw [htext, readMembers_comma hb hb']
      exact hmore

theorem readSettings_outcome {sets : List Setting} {text : List Char} (h : ObjectText sets text) :
    ∃ after, AllBlank after ∧ Outcome (Settings.none.setAll sets) after (readSettings text) := by
  cases h with
  | @empty before blanks after hbefore hb hafter =>
      refine ⟨after, hafter, ?_⟩
      rw [readSettings, skipBlanks_to hbefore (by decide)]
      exact readMembers_closed hb
  | @members _ before blanks members after hbefore hb h hafter =>
      obtain ⟨behind, htext, hread⟩ := readMembers_outcome h Settings.none after
      refine ⟨after, hafter, ?_⟩
      have hnext : nextMember true (blanks ++ '"' :: behind) = .ok (.item behind) := by
        rw [nextMember, skipBlanks_to hb (by decide)]
        rfl
      rw [readSettings, skipBlanks_to hbefore (by decide), htext]
      show Outcome _ _ (readMembers true .none (blanks ++ '"' :: behind))
      rw [readMembers_item hnext]
      exact hread

theorem configOfText_of_setAll {sets : List Setting} {text : String} {settings : Settings}
    (h : ObjectText sets text.toList) (hset : Settings.none.setAll sets = .ok settings) :
    Corpus.configOfText text = .ok settings.complete := by
  obtain ⟨after, hafter, hread⟩ := readSettings_outcome h
  rw [hset] at hread
  rw [Corpus.configOfText, parse, CorpusConfig.read, hread]
  simp only [Except.bind, skipBlanks_all hafter]
  rfl

theorem configOfText_of_refused {sets : List Setting} {text : String} {field : Field}
    (h : ObjectText sets text.toList) (hset : Settings.none.setAll sets = .error field) :
    ∃ fault, Corpus.configOfText text = .error (.config fault) ∧
      fault.problem = .duplicateField field.name := by
  obtain ⟨after, -, hread⟩ := readSettings_outcome h
  rw [hset] at hread
  obtain ⟨unread, hread⟩ := hread
  refine ⟨Failure.inText ⟨.duplicateField field.name, unread⟩ text, ?_, rfl⟩
  rw [Corpus.configOfText, parse, CorpusConfig.read, hread]
  rfl

/-- An object in any layout replaces exactly the options that its members set; where two of them
set one option, that is the error. -/
theorem configOfText_of_object {sets : List Setting} {text : String}
    (h : ObjectText sets text.toList) :
    ((sets.map Setting.field).Nodup →
      Corpus.configOfText text = .ok (sets.foldl Setting.replaceIn default)) ∧
    (¬ (sets.map Setting.field).Nodup → ∃ fault field,
      Corpus.configOfText text = .error (.config fault) ∧
        fault.problem = .duplicateField field.name ∧
        List.Duplicate field (sets.map Setting.field)) := by
  have hnone : ∀ field, Settings.none.has field = false := by intro field; cases field <;> rfl
  constructor
  · intro hnodup
    have hset := Settings.setAll_of_nodup hnodup fun setting _ => hnone setting.field
    rw [configOfText_of_setAll h hset, Settings.complete_foldl_set]
    rfl
  · intro hdup
    cases hset : Settings.none.setAll sets with
    | ok settings => exact absurd (Settings.nodup_of_setAll hset).1 hdup
    | error field =>
        obtain ⟨fault, hfault, hproblem⟩ := configOfText_of_refused h hset
        refine ⟨fault, field, hfault, hproblem, ?_⟩
        have htwo := Settings.two_le_of_setAll hset
        rw [hnone, Bool.toNat_false, Nat.zero_add] at htwo
        exact List.duplicate_iff_two_le_count.mpr htwo

/-- An object with escapes, with a member of another name and with a blank before a comma; and one
that sets an option twice. -/
theorem configOfText_of_object_layouts :
    Corpus.configOfText
        " \x7b\"note\":[1,\"\\uD800\"],\"\\u0063omment_prefix\":\"%\" ,\"max_depth\":7\x7d" =
      .ok ⟨'%', false, 7⟩ ∧
    ∃ fault field,
      Corpus.configOfText "\x7b\"max_depth\":1,\"max_depth\":2\x7d" = .error (.config fault) ∧
        fault.problem = .duplicateField field.name ∧
        List.Duplicate field [Field.maxDepth, Field.maxDepth] := by
  have hunit : HexUnit ['D', '8', '0', '0'] 0xD800 :=
    @HexUnit.digits _ _ _ _ 13 8 0 0 (by decide) (by decide) (by decide) (by decide)
  have hc : HexUnit ['0', '0', '6', '3'] 'c'.toNat :=
    @HexUnit.digits _ _ _ _ 0 0 6 3 (by decide) (by decide) (by decide) (by decide)
  have hlist : Valid .value "[1,\"\\uD800\"]".toList :=
    have hone : NumberText ['1'] :=
      @NumberText.parts [] ['1'] [] [] (by decide) (by decide) .absent .absent
    have hstring : Valid .items "\"\\uD800\"]".toList :=
      .item (.string (.unit hunit .nil)) (.lastItem allBlank_nil)
    .list allBlank_nil (.item (.number hone) (.nextItem allBlank_nil allBlank_nil hstring))
  have hnote : Member none "\"note\":[1,\"\\uD800\"]".toList :=
    have hother : ∀ field : Field, field.name ≠ "note" := by intro field; cases field <;> decide
    @Member.other "note" _ [] [] _ (.plain (by decide)) hother allBlank_nil allBlank_nil hlist
  have hmark : Member (some (.commentMark '%')) "\"\\u0063omment_prefix\":\"%\"".toList :=
    have hmark : Spells ['%'] ['%'] := .plain (by decide)
    have hkey : Spells "\\u0063omment_prefix".toList "comment_prefix".toList :=
      .cons (.unit hc) (.plain (by decide))
    @Member.known (.commentMark '%') _ [] [] _ hkey allBlank_nil allBlank_nil (.commentMark hmark)
  have hdepth : ∀ {depth : UInt64} {digits : List Char}, WholeDigits digits →
      Nat.ofDigitChars 10 digits 0 = depth.toNat →
      Member (some (.maxDepth depth)) ('"' :: ("max_depth".toList ++ '"' :: ':' :: digits)) := by
    intro depth digits hdigits hvalue
    have hkey : Spells "max_depth".toList "max_depth".toList := .plain (by decide)
    exact @Member.known (.maxDepth depth) _ [] [] _ hkey allBlank_nil allBlank_nil
      (.maxDepth hdigits hvalue)
  have hfirst : ObjectText [.commentMark '%', .maxDepth 7] (String.toList
      " \x7b\"note\":[1,\"\\uD800\"],\"\\u0063omment_prefix\":\"%\" ,\"max_depth\":7\x7d") := by
    have hlast := Members.last (@hdepth 7 ['7'] (by decide) (by decide)) allBlank_nil
    have hmembers := Members.next hnote allBlank_nil allBlank_nil
      (.next hmark (show AllBlank [' '] by decide) allBlank_nil hlast)
    exact @ObjectText.members _ [' '] [] _ [] (by decide) allBlank_nil hmembers allBlank_nil
  have hsecond : ObjectText [.maxDepth 1, .maxDepth 2]
      "\x7b\"max_depth\":1,\"max_depth\":2\x7d".toList := by
    have hlast := Members.last (@hdepth 2 ['2'] (by decide) (by decide)) allBlank_nil
    have hfirst := @hdepth 1 ['1'] (by decide) (by decide)
    have hmembers := Members.next hfirst allBlank_nil allBlank_nil hlast
    exact @ObjectText.members _ [] [] _ [] (by decide) allBlank_nil hmembers allBlank_nil
  exact ⟨(configOfText_of_object hfirst).1 (by decide),
    (configOfText_of_object hsecond).2 (by decide)⟩

end ChoiceGrammar.CorpusConfig
