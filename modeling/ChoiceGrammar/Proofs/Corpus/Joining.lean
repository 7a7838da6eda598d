import ChoiceGrammar.Proofs.Corpus.Lines
import ChoiceGrammar.Proofs.Corpus.Loading

/-!
# Corpora one behind the other

A text of whole lines and a text behind it have the lines of the first and then those of the second.
So the two are loaded one after the other: the second begins with the number that comes after the
lines of the first, and its branches stand behind the branches of the first.
-/

namespace ChoiceGrammar.Corpus

variable {config : CorpusConfig} {number n : Nat} {source error : BuildError}

/-- Whole lines or nothing, so that what stands behind it begins a line. -/
def EndsLine (text : List Char) : Prop := text = [] ∨ text.getLast? = some '\n'

instance : DecidablePred EndsLine := fun text =>
  inferInstanceAs (Decidable (text = [] ∨ text.getLast? = some '\n'))

theorem EndsLine.behind {line text : List Char} (h : EndsLine (line ++ '\n' :: text)) :
    EndsLine text := by
  cases text with
  | nil => exact .inl rfl
  | cons c cs =>
      rcases h with hnil | hlast
      · simp at hnil
      · right
        rwa [List.getLast?_append_cons, List.getLast?_cons_cons] at hlast

theorem lines_append {front : List Char} (h : EndsLine front) (text : List Char) :
    lines (front ++ text) = lines front ++ lines text := by
  induction front using text_induct with
  | last line hline =>
      rcases h with rfl | hlast
      · rfl
      · exact absurd (List.mem_of_getLast? hlast) hline
  | step line rest hline ih =>
      rw [List.append_assoc, List.cons_append, lines_line hline, lines_line hline, ih h.behind,
        List.cons_append]

/-- Lines behind other lines are loaded after them, under the numbers that come next. -/
theorem branches_append (config : CorpusConfig) (number : Nat) (xs ys : List (List Char)) :
    branches config number (xs ++ ys) = (branches config number xs).bind fun es =>
      (branches config (number + xs.length) ys).map (es ++ ·) := by
  induction xs generalizing number with
  | nil => cases hys : branches config number ys <;> simp [branches, Except.bind, Except.map, hys]
  | cons x xs ih =>
      have hnumber : number + (xs.length + 1) = number + 1 + xs.length := by omega
      rw [List.cons_append, branches, branches, ih, List.length_cons, hnumber]
      split
      · cases Expr.parseChars config.maxDepth.toNat (trim x) with
        | error fault => rfl
        | ok branch =>
            cases branches config (number + 1) xs with
            | error error => rfl
            | ok es => cases branches config (number + 1 + xs.length) ys <;> rfl
      · rfl

theorem branches_add_eq_atLine_iff {k : Nat} {lines : List (List Char)} :
    branches config (k + number) lines = .error (.atLine (k + n) source) ↔
      branches config number lines = .error (.atLine n source) := by
  rw [branches_eq_error_iff, branches_eq_error_iff]
  constructor
  · rintro ⟨m, refused, hfirst, heq⟩
    obtain ⟨hn, rfl⟩ := BuildError.atLine.inj heq
    exact ⟨m, source, hfirst, by congr 1; omega⟩
  · rintro ⟨m, refused, hfirst, heq⟩
    obtain ⟨rfl, rfl⟩ := BuildError.atLine.inj heq
    exact ⟨m, source, hfirst, by congr 1; omega⟩

theorem parse_eq_atLine_iff_branches {text : String} :
    parse config text = .error (.atLine n source) ↔
      branches config 1 (lines text.toList) = .error (.atLine n source) := by
  rw [parse_eq_atLine_iff, branches_eq_mapM]

theorem exists_branches_of_parse {text : String}
    (h : ∀ n source, parse config text ≠ .error (.atLine n source)) :
    ∃ es, branches config 1 (lines text.toList) = .ok es ∧
      parse config text = Expr.alternation es := by
  cases hloaded : branches config 1 (lines text.toList) with
  | error error =>
      obtain ⟨n, source, -, rfl⟩ := branches_eq_error_iff.mp hloaded
      exact absurd (parse_eq_atLine_iff_branches.mpr hloaded) (h _ source)
  | ok es =>
      refine ⟨es, rfl, ?_⟩
      rw [parse, hloaded]
      rfl

theorem alternation_eq_emptyAlternation_iff {es : List Expr} :
    Expr.alternation es = .error .emptyAlternation ↔ es = [] := by
  cases es <;> simp [Expr.alternation]

theorem alternation_injective : Function.Injective Expr.alternation := by
  intro es others h
  cases es <;> cases others <;> simp_all [Expr.alternation]

/-- A text behind whole lines is loaded after them. A line of the first that is refused is reported
as it is, and else a line of the second under its number past all the lines of the first. Where
neither has such a line the branches of the second stand behind those of the first, and an
alternation is empty only if both are. -/
theorem parse_append (config : CorpusConfig) {front : String} (hfront : EndsLine front.toList)
    (text : String) :
    let k := (lines front.toList).length
    (∀ n source, parse config front = .error (.atLine n source) →
        parse config (front ++ text) = .error (.atLine n source)) ∧
      ((∀ n source, parse config front ≠ .error (.atLine n source)) →
        (∀ n source, parse config text = .error (.atLine n source) →
          parse config (front ++ text) = .error (.atLine (k + n) source)) ∧
        ((∀ n source, parse config text ≠ .error (.atLine n source)) →
          ∃ es others, parse config front = Expr.alternation es ∧
            parse config text = Expr.alternation others ∧
            parse config (front ++ text) = Expr.alternation (es ++ others) ∧
            (parse config (front ++ text) = .error .emptyAlternation ↔
              parse config front = .error .emptyAlternation ∧
                parse config text = .error .emptyAlternation))) := by
  intro k
  have hloaded : branches config 1 (lines (front ++ text).toList) =
      (branches config 1 (lines front.toList)).bind fun es =>
        (branches config (k + 1) (lines text.toList)).map (es ++ ·) := by
    rw [String.toList_append, lines_append hfront, branches_append, Nat.add_comm 1]
  refine ⟨?_, ?_⟩
  · intro n source h
    rw [parse_eq_atLine_iff_branches] at h ⊢
    rw [hloaded, h]
    rfl
  intro hread
  obtain ⟨es, hes, hparse⟩ := exists_branches_of_parse hread
  rw [hes] at hloaded
  refine ⟨?_, ?_⟩
  · intro n source h
    rw [parse_eq_atLine_iff_branches] at h ⊢
    rw [hloaded, branches_add_eq_atLine_iff.mpr h]
    rfl
  · intro hread'
    obtain ⟨others, hothers, hparse'⟩ := exists_branches_of_parse hread'
    have hlater : branches config (k + 1) (lines text.toList) = .ok others :=
      branches_eq_ok_iff.mpr (branches_eq_ok_iff.mp hothers)
    have hboth : parse config (front ++ text) = Expr.alternation (es ++ others) := by
      rw [parse, hloaded, hlater]
      rfl
    refine ⟨es, others, hparse, hparse', hboth, ?_⟩
    rw [hboth, hparse, hparse']
    simp only [alternation_eq_emptyAlternation_iff, List.append_eq_nil_iff]

/-- The first text has three lines, one of them a comment and one of them blank, so that the second
line of the other text is the fifth. -/
theorem parse_append_numbers :
    let config : CorpusConfig := ⟨'#', true, 1⟩
    let front := "# note\r\n<a|b>\n\n"
    EndsLine front.toList ∧ parse config "c\n<d" = .error (.atLine 2 (.markup (.unterminated 0))) ∧
      parse config (front ++ "c\n<d") = .error (.atLine 5 (.markup (.unterminated 0))) ∧
      parse config ("a>\n" ++ "<d") = .error (.atLine 1 (.markup (.trailingInput 1 '>'))) ∧
      parse config (front ++ "c\nd") =
        .ok (.alt (.alt (.term "a") [.term "b"]) [.term "c", .term "d"]) := by
  intro config front
  have hfront : parse config front = Expr.alternation [.alt (.term "a") [.term "b"]] := by decide
  have htext : parse config "c\nd" = Expr.alternation [.term "c", .term "d"] := by decide
  have hread : ∀ n source, parse config front ≠ .error (.atLine n source) := by
    simp [hfront, Expr.alternation]
  have hread' : ∀ n source, parse config "c\nd" ≠ .error (.atLine n source) := by
    simp [htext, Expr.alternation]
  have hends : EndsLine front.toList := by decide
  have hthree : (lines front.toList).length = 3 := by decide
  have hstray : parse config "a>\n" = .error (.atLine 1 (.markup (.trailingInput 1 '>'))) := by
    decide
  have hopen : parse config "c\n<d" = .error (.atLine 2 (.markup (.unterminated 0))) := by decide
  obtain ⟨-, hbehind⟩ := parse_append config hends "c\n<d"
  obtain ⟨hlater, -⟩ := hbehind hread
  rw [hthree] at hlater
  obtain ⟨hfirst, -⟩ := parse_append config (by decide : EndsLine "a>\n".toList) "<d"
  obtain ⟨-, hbehind'⟩ := parse_append config hends "c\nd"
  obtain ⟨-, hboth⟩ := hbehind' hread
  obtain ⟨es, others, hes, hothers, hjoined, -⟩ := hboth hread'
  rw [hfront] at hes
  rw [htext] at hothers
  refine ⟨hends, hopen, hlater 2 _ hopen, hfirst 1 _ hstray, ?_⟩
  rw [hjoined, ← alternation_injective hes, ← alternation_injective hothers]
  rfl

end ChoiceGrammar.Corpus
