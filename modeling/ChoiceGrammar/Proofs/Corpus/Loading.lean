import ChoiceGrammar.Proofs.Corpus.Entries
import ChoiceGrammar.Proofs.Corpus.Lines

/-!
# Loading a corpus

A trimmed line of a corpus is kept unless it is a comment, or blank where blank lines are skipped. A
corpus has one branch for each kept line, in their order. It is refused for the first kept line that
is refused, under the number of that line among all lines, or for having no kept line at all.
-/

namespace ChoiceGrammar.Corpus

variable {config : CorpusConfig} {line : List Char} {lines trimmed : List (List Char)}
  {number n : Nat} {source error : BuildError}

/-- A trimmed line that is no comment, and not blank where blank lines are skipped. -/
def Kept (config : CorpusConfig) (line : List Char) : Prop :=
  line.head? ≠ some config.commentMark ∧ ¬ (line = [] ∧ config.skipBlankLines = true)

instance (config : CorpusConfig) : DecidablePred (Kept config) := fun line =>
  inferInstanceAs (Decidable (line.head? ≠ some config.commentMark ∧
    ¬ (line = [] ∧ config.skipBlankLines = true)))

def keptLines (config : CorpusConfig) (trimmed : List (List Char)) : List (List Char) :=
  trimmed.filter fun line => Kept config line

def parseLine (config : CorpusConfig) (line : List Char) : Except BuildError Expr :=
  Expr.ofText config.maxDepth.toNat (.ofList line)

/-- The line at this place is kept and refused, and no kept line before it is. -/
structure FirstRefused (config : CorpusConfig) (trimmed : List (List Char)) (n : Nat)
    (source : BuildError) : Prop where
  refused : ∃ line, trimmed[n]? = some line ∧ Kept config line ∧
    parseLine config line = .error source
  accepted : ∀ m < n, ∀ line, trimmed[m]? = some line → Kept config line →
    ∃ branch, parseLine config line = .ok branch

theorem isKept_iff : isKept config line = true ↔ Kept config line := by
  rw [isKept, Kept, Bool.and_eq_true, bne_iff_ne, Bool.not_eq_true', Bool.and_eq_false_iff]
  by_cases hblank : line = []
  · simp [hblank]
  · simp [hblank]

theorem parseLine_eq (config : CorpusConfig) (line : List Char) : parseLine config line =
    (Expr.parseChars config.maxDepth.toNat line).mapError .markup := by
  rw [parseLine, Expr.ofText, Expr.parseWithin, String.toList_ofList]

theorem parseLine_eq_ok_iff {branch : Expr} : parseLine config line = .ok branch ↔
    Expr.parseChars config.maxDepth.toNat line = .ok branch := by
  rw [parseLine_eq]
  cases Expr.parseChars config.maxDepth.toNat line <;> simp [Except.mapError]

theorem exists_fault_of_parseLine (h : parseLine config line = .error source) :
    ∃ fault, source = .markup fault := by
  rw [parseLine_eq] at h
  cases hread : Expr.parseChars config.maxDepth.toNat line with
  | ok branch => simp [hread, Except.mapError] at h
  | error fault =>
      rw [hread] at h
      cases h
      exact ⟨fault, rfl⟩

theorem branches_cons_eq_error_iff : branches config number (line :: lines) = .error error ↔
    (Kept config (trim line) ∧ ∃ source, parseLine config (trim line) = .error source ∧
        error = .atLine number source) ∨
      (Kept config (trim line) → ∃ branch, parseLine config (trim line) = .ok branch) ∧
        branches config (number + 1) lines = .error error := by
  rw [branches, parseLine_eq]
  by_cases hkept : Kept config (trim line)
  · rw [if_pos (isKept_iff.mpr hkept)]
    cases Expr.parseChars config.maxDepth.toNat (trim line) with
    | error fault => simp [hkept, Except.mapError, eq_comm]
    | ok branch =>
        cases branches config (number + 1) lines <;> simp [hkept, Except.mapError, Except.map]
  · rw [if_neg (mt isKept_iff.mp hkept)]
    simp [hkept]

theorem firstRefused_zero : FirstRefused config (line :: trimmed) 0 source ↔
    Kept config line ∧ parseLine config line = .error source := by
  constructor
  · rintro ⟨⟨other, hother, h⟩, -⟩
    obtain rfl : line = other := by simpa using hother
    exact h
  · intro h
    exact ⟨⟨line, rfl, h⟩, fun m hm => absurd hm (Nat.not_lt_zero m)⟩

theorem firstRefused_succ : FirstRefused config (line :: trimmed) (n + 1) source ↔
    (Kept config line → ∃ branch, parseLine config line = .ok branch) ∧
      FirstRefused config trimmed n source := by
  constructor
  · rintro ⟨hrefused, haccepted⟩
    refine ⟨haccepted 0 (Nat.succ_pos n) line rfl, hrefused, ?_⟩
    intro m hm
    exact haccepted (m + 1) (Nat.succ_lt_succ hm)
  · rintro ⟨hline, hrefused, haccepted⟩
    refine ⟨hrefused, ?_⟩
    intro m hm other hother
    cases m with
    | zero =>
        obtain rfl : line = other := by simpa using hother
        exact hline
    | succ m => exact haccepted m (Nat.lt_of_succ_lt_succ hm) other hother

/-- Loading from any number on stops at the first kept line that is refused. -/
theorem branches_eq_error_iff : branches config number lines = .error error ↔
    ∃ n source, FirstRefused config (lines.map trim) n source ∧
      error = .atLine (number + n) source := by
  induction lines generalizing number with
  | nil =>
      constructor
      · intro h
        cases h
      · rintro ⟨n, source, ⟨⟨line, hline, -⟩, -⟩, -⟩
        simp at hline
  | cons line lines ih =>
      rw [branches_cons_eq_error_iff, ih, List.map_cons]
      constructor
      · rintro (⟨hkept, source, hline, rfl⟩ | ⟨hline, n, source, hfirst, rfl⟩)
        · exact ⟨0, source, firstRefused_zero.mpr ⟨hkept, hline⟩, rfl⟩
        · refine ⟨n + 1, source, firstRefused_succ.mpr ⟨hline, hfirst⟩, ?_⟩
          rw [Nat.add_assoc, Nat.add_comm 1]
      · rintro ⟨n, source, hfirst, rfl⟩
        cases n with
        | zero =>
            obtain ⟨hkept, hline⟩ := firstRefused_zero.mp hfirst
            exact .inl ⟨hkept, source, hline, rfl⟩
        | succ n =>
            obtain ⟨hline, hrest⟩ := firstRefused_succ.mp hfirst
            refine .inr ⟨hline, n, source, hrest, ?_⟩
            rw [Nat.add_assoc, Nat.add_comm 1]

theorem branches_eq_ok_iff_keptLines {es : List Expr} : branches config number lines = .ok es ↔
    List.Forall₂ (fun line branch => parseLine config line = .ok branch)
      (keptLines config (lines.map trim)) es := by
  have hkept : isKept config = fun line => decide (Kept config line) := by
    funext line
    rw [Bool.eq_iff_iff, isKept_iff, decide_eq_true_iff]
  rw [branches_eq_ok_iff, hkept, keptLines]
  simp only [parseLine_eq_ok_iff]

theorem exists_forall₂_iff {α β : Type} {R : α → β → Prop} {xs : List α} :
    (∃ ys, List.Forall₂ R xs ys) ↔ ∀ x ∈ xs, ∃ y, R x y := by
  induction xs with
  | nil => simp
  | cons x xs ih =>
      rw [List.forall_mem_cons, ← ih]
      constructor
      · rintro ⟨_, _ | ⟨hx, hxs⟩⟩
        exact ⟨⟨_, hx⟩, _, hxs⟩
      · rintro ⟨⟨y, hx⟩, ys, hxs⟩
        exact ⟨y :: ys, .cons hx hxs⟩

theorem bind_alternation_eq_ok_iff {loaded : Except BuildError (List Expr)} {e : Expr} :
    loaded.bind Expr.alternation = .ok e ↔
      ∃ first rest, e = .alt first rest ∧ loaded = .ok (first :: rest) := by
  cases loaded with
  | error error => simp [Except.bind]
  | ok es => cases es <;> simp [Except.bind, Expr.alternation, eq_comm]

theorem bind_alternation_eq_error_iff {loaded : Except BuildError (List Expr)} :
    loaded.bind Expr.alternation = .error error ↔
      loaded = .ok [] ∧ error = .emptyAlternation ∨ loaded = .error error := by
  cases loaded with
  | error error => simp [Except.bind]
  | ok es => cases es <;> simp [Except.bind, Expr.alternation, eq_comm]

theorem parse_eq_ok_iff {text : String} {e : Expr} : parse config text = .ok e ↔
    ∃ first rest, e = .alt first rest ∧
      List.Forall₂ (fun line branch => parseLine config line = .ok branch)
        (keptLines config ((Corpus.lines text.toList).map trim)) (first :: rest) := by
  rw [parse, bind_alternation_eq_ok_iff]
  simp only [branches_eq_ok_iff_keptLines]

theorem parse_eq_error_iff {text : String} : parse config text = .error error ↔
    keptLines config ((Corpus.lines text.toList).map trim) = [] ∧ error = .emptyAlternation ∨
      ∃ n source, FirstRefused config ((Corpus.lines text.toList).map trim) n source ∧
        error = .atLine (n + 1) source := by
  rw [parse, bind_alternation_eq_error_iff, branches_eq_ok_iff_keptLines,
    List.forall₂_nil_right_iff, branches_eq_error_iff]
  simp only [Nat.add_comm 1]

/-- A text has one list of trimmed lines. Its corpus has the branches of those that are kept, one
for each and in their order, if there is such a line and all of them are accepted. Without a kept
line it is an empty alternation. Else it is refused under the number of the first kept line that is
refused, and the source of the error is the error of that line, which is one of markup. -/
theorem parse_outcome (config : CorpusConfig) (text : String) :
    ∃ trimmed, (∀ other, TrimmedLines text.toList other ↔ other = trimmed) ∧
      let kept := keptLines config trimmed
      (∀ e, parse config text = .ok e ↔ ∃ first rest, e = .alt first rest ∧
        List.Forall₂ (fun line branch => parseLine config line = .ok branch) kept
          (first :: rest)) ∧
      ((∃ e, parse config text = .ok e) ↔
        kept ≠ [] ∧ ∀ line ∈ kept, ∃ branch, parseLine config line = .ok branch) ∧
      (parse config text = .error .emptyAlternation ↔ kept = []) ∧
      (∀ error, parse config text = .error error ↔
        kept = [] ∧ error = .emptyAlternation ∨
          ∃ n source, FirstRefused config trimmed n source ∧ error = .atLine (n + 1) source) ∧
      ∀ n source, FirstRefused config trimmed n source → ∃ fault, source = .markup fault := by
  refine ⟨(lines text.toList).map trim, fun _ => trimmedLines_iff, fun _ => parse_eq_ok_iff, ?_, ?_,
    fun _ => parse_eq_error_iff, ?_⟩
  · rw [← exists_forall₂_iff]
    constructor
    · rintro ⟨e, he⟩
      obtain ⟨first, rest, -, hbranches⟩ := parse_eq_ok_iff.mp he
      refine ⟨?_, first :: rest, hbranches⟩
      apply List.ne_nil_of_length_pos
      rw [hbranches.length_eq]
      exact Nat.succ_pos _
    · rintro ⟨hne, es, hes⟩
      cases es with
      | nil => exact absurd (List.forall₂_nil_right_iff.mp hes) hne
      | cons first rest => exact ⟨_, parse_eq_ok_iff.mpr ⟨first, rest, rfl, hes⟩⟩
  · rw [parse_eq_error_iff]
    simp
  · rintro n source ⟨⟨line, -, -, hline⟩, -⟩
    exact exists_fault_of_parseLine hline

/-- The comment mark hides a line that would be an expression, the blank line is skipped, and both
of them count. -/
example : parse ⟨'<', true, 1⟩ "<a|b>\n \nc>" =
    .error (.atLine 3 (.markup (.trailingInput 1 '>'))) := by decide

end ChoiceGrammar.Corpus
