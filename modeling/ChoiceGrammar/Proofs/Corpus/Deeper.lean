import ChoiceGrammar.Proofs.Corpus.Entries
import ChoiceGrammar.Proofs.Markup.Violations

/-!
# Raising the nesting limit

Under a higher limit the reader takes the same steps, but for a step that the lower limit refused.
So whatever was settled before the limit was met, for a text and for a whole corpus, stays as it
was. A corpus that was refused for its depth is read under the higher limit as far as that line at
least.
-/

namespace ChoiceGrammar

namespace Markup

variable {limit deeper : Nat}

theorem Progress.step_of_ne {c : Char} (hc : c ≠ '<') (limit deeper : Nat) (p : Progress) :
    p.step deeper c = p.step limit c := by
  unfold Progress.step
  split
  · exact absurd rfl hc
  all_goals rfl

theorem Progress.step_deeper (hle : limit ≤ deeper) {p : Progress} {c : Char}
    (h : ∀ position level, p.step limit c ≠ .error (.tooDeep position level)) :
    p.step deeper c = p.step limit c := by
  by_cases hc : c = '<'
  · subst hc
    have hlt : ¬ limit ≤ p.stack.length := by
      intro hlimit
      apply h p.position limit
      simp [Progress.step, hlimit]
    have hlt' : ¬ deeper ≤ p.stack.length := by omega
    simp [Progress.step, hlt, hlt']
  · exact step_of_ne hc limit deeper p

theorem Progress.run_deeper (hle : limit ≤ deeper) {p : Progress} {text : List Char}
    (h : ∀ position level, p.run limit text ≠ .error (.tooDeep position level)) :
    p.run deeper text = p.run limit text := by
  induction text generalizing p with
  | nil => rfl
  | cons c cs ih =>
      have hstep : p.step deeper c = p.step limit c := by
        apply step_deeper hle
        intro position level hdeep
        apply h position level
        rw [run, hdeep]
      rw [run, run, hstep]
      cases hq : p.step limit c with
      | error fault => rfl
      | ok q =>
          apply ih
          intro position level hdeep
          apply h position level
          rw [run, hq]
          exact hdeep

theorem level_of_read {text : List Char} {position level : Nat}
    (h : read limit text = .error (.tooDeep position level)) : level = limit := by
  obtain ⟨p, -, hviolation, -⟩ := read_error_iff.mp h
  cases hviolation
  rfl

end Markup

section Traversal

variable {α β ε : Type} {f g : α → Except ε β} {refused : ε → Prop} {xs : List α}

theorem mapM_congr_of_not_refused
    (hagree : ∀ x, (∀ e, f x = .error e → ¬ refused e) → g x = f x)
    (h : ∀ e, xs.mapM f = .error e → ¬ refused e) : xs.mapM g = xs.mapM f := by
  have hok {x : α} {y : β} (hx : f x = .ok y) : g x = .ok y := by
    rw [hagree x, hx]
    simp [hx]
  cases hxs : xs.mapM f with
  | ok ys =>
      rw [mapM_eq_ok_iff] at hxs ⊢
      exact hxs.imp fun _ _ => hok
  | error e =>
      have hrefused := h e hxs
      rw [mapM_eq_error_iff] at hxs ⊢
      obtain ⟨before, x, after, rfl, hbefore, hx⟩ := hxs
      refine ⟨before, x, after, rfl, ?_, ?_⟩
      · intro b hb
        obtain ⟨y, hy⟩ := hbefore b hb
        exact ⟨y, hok hy⟩
      · rw [hagree x, hx]
        rintro e' he'
        obtain rfl : e = e' := by simpa [hx] using he'
        exact hrefused

end Traversal

namespace Corpus

variable {config : CorpusConfig} {deeper : UInt64}

/-- The nesting limit is what a line is refused for. -/
def IsTooDeep : BuildError → Prop
  | .atLine _ (.markup (.tooDeep _ _)) => True
  | _ => False

theorem parseEntry_deeper (hle : config.maxDepth ≤ deeper) (entry : List Char × Nat)
    (h : ∀ error, parseEntry config entry = .error error → ¬ IsTooDeep error) :
    parseEntry { config with maxDepth := deeper } entry = parseEntry config entry := by
  have hread : Expr.parseChars deeper.toNat entry.1 =
      Expr.parseChars config.maxDepth.toNat entry.1 := by
    apply Markup.Progress.run_deeper (UInt64.le_iff_toNat_le.mp hle)
    intro position level hdeep
    apply h (.atLine entry.2 (.markup (.tooDeep position level)))
    · exact parseEntry_eq_error_iff.mpr ⟨_, hdeep, rfl⟩
    · trivial
  rw [parseEntry, hread]
  rfl

theorem entries_deeper (config : CorpusConfig) (deeper : UInt64) (number : Nat)
    (lines : List (List Char)) :
    entries { config with maxDepth := deeper } number lines = entries config number lines := rfl

theorem parse_deeper_of_not_tooDeep (hle : config.maxDepth ≤ deeper) {text : String}
    (h : ∀ number position level,
      parse config text ≠ .error (.atLine number (.markup (.tooDeep position level)))) :
    parse { config with maxDepth := deeper } text = parse config text := by
  rw [parse_eq, parse_eq, entries_deeper]
  congr 1
  apply mapM_congr_of_not_refused (parseEntry_deeper hle)
  intro error herror hdeep
  unfold IsTooDeep at hdeep
  split at hdeep
  · next number position level =>
      exact h number position level (parse_eq_atLine_iff.mpr herror)
  · exact hdeep

/-- An entry that was read under the lower limit is no obstacle under the higher one. -/
theorem parseEntry_deeper_of_ok (hle : config.maxDepth ≤ deeper) {entry : List Char × Nat}
    {e : Expr} (h : parseEntry config entry = .ok e) :
    parseEntry { config with maxDepth := deeper } entry = .ok e := by
  rw [parseEntry_deeper hle, h]
  simp [h]

theorem parse_deeper_of_tooDeep (hle : config.maxDepth ≤ deeper) {text : String}
    {number position level : Nat}
    (h : parse config text = .error (.atLine number (.markup (.tooDeep position level)))) :
    (∃ e, parse { config with maxDepth := deeper } text = .ok e) ∨
      ∃ later source, number ≤ later ∧
        parse { config with maxDepth := deeper } text = .error (.atLine later source) := by
  rw [parse_eq_atLine_iff, mapM_eq_error_iff] at h
  obtain ⟨before, entry, after, hentries, hbefore, hentry⟩ := h
  obtain ⟨fault, -, hnumber⟩ := parseEntry_eq_error_iff.mp hentry
  obtain rfl : number = entry.2 := (BuildError.atLine.inj hnumber).1
  have hup := entries_pairwise config 1 (lines text.toList)
  rw [hentries, List.pairwise_append, List.pairwise_cons] at hup
  obtain ⟨-, ⟨hafter, -⟩, -⟩ := hup
  cases hdeeper : (entries config 1 (lines text.toList)).mapM
      (parseEntry { config with maxDepth := deeper }) with
  | ok es =>
      left
      have hne : es ≠ [] := by
        rintro rfl
        rw [mapM_eq_ok_iff, List.forall₂_nil_right_iff, hentries] at hdeeper
        simp at hdeeper
      rw [parse_eq, entries_deeper, hdeeper]
      exact alternation_eq_ok hne
  | error error =>
      right
      have hsplit := mapM_eq_error_iff.mp hdeeper
      obtain ⟨earlier, other, rest, hsplit, -, hother⟩ := hsplit
      obtain ⟨fault', -, rfl⟩ := parseEntry_eq_error_iff.mp hother
      refine ⟨other.2, .markup fault', ?_, parse_eq_atLine_iff.mpr hdeeper⟩
      have hmem : other ∈ before ++ entry :: after := by
        rw [← hentries, hsplit]
        simp
      rcases List.mem_append.mp hmem with hb | ha
      · obtain ⟨e, he⟩ := hbefore other hb
        simp [parseEntry_deeper_of_ok hle he] at hother
      · rcases List.mem_cons.mp ha with rfl | ha
        · exact Nat.le_refl _
        · exact Nat.le_of_lt (hafter other ha)

/-- Raising the nesting limit changes nothing for a corpus that was not refused for its depth: its
tree, or its error, stays. A corpus that was refused for the depth of a line is read, or is refused
for that line or a later one. -/
theorem parse_deeper (config : CorpusConfig) (deeper : UInt64) (text : String)
    (hle : config.maxDepth ≤ deeper) :
    ((∀ number position level,
        parse config text ≠ .error (.atLine number (.markup (.tooDeep position level)))) →
      parse { config with maxDepth := deeper } text = parse config text) ∧
    ∀ number position level,
      parse config text = .error (.atLine number (.markup (.tooDeep position level))) →
        level = config.maxDepth.toNat ∧
          ((∃ e, parse { config with maxDepth := deeper } text = .ok e) ∨
            ∃ later source, number ≤ later ∧
              parse { config with maxDepth := deeper } text = .error (.atLine later source)) := by
  refine ⟨parse_deeper_of_not_tooDeep hle, ?_⟩
  intro number position level h
  refine ⟨?_, parse_deeper_of_tooDeep hle h⟩
  obtain ⟨_, entry, _, _, _, hentry⟩ := mapM_eq_error_iff.mp (parse_eq_atLine_iff.mp h)
  obtain ⟨fault, hread, herror⟩ := parseEntry_eq_error_iff.mp hentry
  obtain ⟨-, hsource⟩ := BuildError.atLine.inj herror
  obtain rfl := BuildError.markup.inj hsource
  exact Markup.level_of_read hread

/-- Two levels let the second line in, and then it is the third that is refused, for a group without
an end. A corpus refused for a stray bracket ahead of its deep line stays refused for that. -/
theorem parse_deeper_next_line :
    let config : CorpusConfig := ⟨'#', true, 1⟩
    let raised : CorpusConfig := ⟨'#', true, 2⟩
    parse config "one\n<a|<b|c>>\n<two" = .error (.atLine 2 (.markup (.tooDeep 3 1))) ∧
      (∃ later source, 2 ≤ later ∧
        parse raised "one\n<a|<b|c>>\n<two" = .error (.atLine later source)) ∧
      parse raised "one\n<a|<b|c>>\n<two" = .error (.atLine 3 (.markup (.unterminated 0))) ∧
      parse raised "a>\n<<b>>" = .error (.atLine 1 (.markup (.trailingInput 1 '>'))) := by
  intro config raised
  have hle : config.maxDepth ≤ 2 := by decide
  have hdeep : parse config "one\n<a|<b|c>>\n<two" =
      .error (.atLine 2 (.markup (.tooDeep 3 1))) := by decide
  have hraised : parse raised "one\n<a|<b|c>>\n<two" =
      .error (.atLine 3 (.markup (.unterminated 0))) := by decide
  have hstray : parse config "a>\n<<b>>" = .error (.atLine 1 (.markup (.trailingInput 1 '>'))) := by
    decide
  obtain ⟨-, htooDeep⟩ := parse_deeper config 2 "one\n<a|<b|c>>\n<two" hle
  obtain ⟨-, hlater⟩ := htooDeep 2 3 1 hdeep
  obtain ⟨hsame, -⟩ := parse_deeper config 2 "a>\n<<b>>" hle
  refine ⟨hdeep, ?_, hraised, ?_⟩
  · rcases hlater with ⟨e, he⟩ | hlater
    · rw [hraised] at he
      simp at he
    · exact hlater
  · rw [hsame, hstray]
    simp [hstray]

end Corpus

end ChoiceGrammar
