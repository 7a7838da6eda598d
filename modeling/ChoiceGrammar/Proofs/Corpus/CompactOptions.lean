import ChoiceGrammar.Proofs.Corpus.Options
import ChoiceGrammar.Proofs.Json.Compact

/-!
# Compact options

An object that sets each option at most once, in compact text, sets what it says. So options that
are written out in full are read back as they are, whatever character marks the comments.
-/

namespace ChoiceGrammar.CorpusConfig

open Json

namespace Setting

/-- The value that a member gives to the option. -/
def toJson : Setting → Value
  | commentMark mark => .string (.singleton mark)
  | skipBlankLines skip => .bool skip
  | maxDepth depth => .number depth.toNat

def toMember (setting : Setting) : String × Value := (setting.field.name, setting.toJson)

/-- The text of the member, without what stands around it. -/
def memberChars (setting : Setting) : List Char :=
  quotedChars setting.field.name ++ ':' :: setting.toJson.chars

theorem written_toJson (setting : Setting) : setting.Written setting.toJson.chars := by
  cases setting with
  | commentMark mark =>
      have hbody : Spells (List.flatMap escape [mark]) [mark] := spells_escape [mark]
      have hchars : quotedChars (.singleton mark) =
          '"' :: (List.flatMap escape [mark] ++ ['"']) := by
        rw [quotedChars, String.toList_singleton]
      rw [toJson, Value.chars, hchars]
      exact .commentMark hbody
  | skipBlankLines skip =>
      cases skip with
      | true => exact .yes
      | false => exact .no
  | maxDepth depth =>
      rw [toJson, Value.chars]
      exact .maxDepth (wholeDigits_toDigits depth.toNat) Nat.ofDigitChars_ten_toDigits

theorem member_memberChars (setting : Setting) : Member (some setting) setting.memberChars := by
  have hmember := Member.known (spells_escape setting.field.name.toList) allBlank_nil allBlank_nil
    setting.written_toJson
  simpa [memberChars, quotedChars] using hmember

end Setting

theorem members_compact (setting : Setting) (settings : List Setting) :
    Members (setting :: settings)
      (setting.memberChars ++ Value.memberChars (settings.map Setting.toMember)) := by
  induction settings generalizing setting with
  | nil => exact .last setting.member_memberChars allBlank_nil
  | cons next settings ih =>
      have hnext := Members.next setting.member_memberChars allBlank_nil allBlank_nil (ih next)
      simpa [Setting.memberChars, Setting.toMember, Value.memberChars] using hnext

theorem objectText_compact (settings : List Setting) :
    ObjectText settings (Value.object (settings.map Setting.toMember)).compact.toList := by
  rw [Value.compact, String.toList_ofList]
  cases settings with
  | nil => exact .empty allBlank_nil allBlank_nil allBlank_nil
  | cons setting settings =>
      have hobject := ObjectText.members allBlank_nil allBlank_nil
        (members_compact setting settings) allBlank_nil
      simpa [Setting.memberChars, Setting.toMember, Value.chars] using hobject

/-- The options one by one, as they are written out. -/
def settings (config : CorpusConfig) : List Setting :=
  [.commentMark config.commentMark, .skipBlankLines config.skipBlankLines,
    .maxDepth config.maxDepth]

theorem toJson_eq (config : CorpusConfig) :
    config.toJson = .object (config.settings.map Setting.toMember) := rfl

theorem setAll_settings (config : CorpusConfig) :
    ∃ settings, Settings.none.setAll config.settings = .ok settings ∧ settings.complete = config :=
  ⟨⟨some config.commentMark, some config.skipBlankLines, some config.maxDepth⟩, rfl, rfl⟩

/-- Any options are read back from their compact text. -/
theorem configOfText_compact (config : CorpusConfig) :
    Corpus.configOfText config.toJson.compact = .ok config := by
  obtain ⟨settings, hset, hcomplete⟩ := config.setAll_settings
  have htext : ObjectText config.settings config.toJson.compact.toList := by
    rw [toJson_eq]
    exact objectText_compact config.settings
  rw [configOfText_of_setAll htext hset, hcomplete]

/-- A mark that has no short escape, and the deepest limit. -/
example : (CorpusConfig.mk '\x1f' true (-1)).toJson.compact =
    "\x7b\"comment_prefix\":\"\\u001f\",\"skip_blank_lines\":true," ++
      "\"max_depth\":18446744073709551615\x7d" := by cbv

end ChoiceGrammar.CorpusConfig
