import ChoiceGrammar.Corpus.Basic
import Mathlib.Data.List.Forall2

/-!
# The entries of a corpus

The lines of a corpus that are kept are its entries, each with its number. They are parsed one by
one: the corpus is the alternation between what they are parsed to, or it is refused for the first
of them that is refused.
-/

namespace ChoiceGrammar

section Traversal

variable {α β ε : Type} {f : α → Except ε β} {xs : List α}

theorem mapM_eq_ok_iff {ys : List β} :
    xs.mapM f = .ok ys ↔ List.Forall₂ (fun x y => f x = .ok y) xs ys := by
  induction xs generalizing ys with
  | nil => cases ys <;> simp [pure, Except.pure]
  | cons x xs ih =>
      rw [List.mapM_cons]
      cases hx : f x with
      | error e => cases ys <;> simp [bind, Except.bind, hx]
      | ok y =>
          cases hxs : xs.mapM f with
          | error e => cases ys <;> simp [bind, Except.bind, ← ih, hxs, hx]
          | ok zs => cases ys <;> simp [bind, Except.bind, pure, Except.pure, ← ih, hxs, hx]

theorem exists_mem_of_forall₂ {R : α → β → Prop} {ys : List β} (h : List.Forall₂ R xs ys) {y : β}
    (hy : y ∈ ys) : ∃ x ∈ xs, R x y := by
  induction h with
  | nil => simp at hy
  | @cons x _ xs _ hxy _ ih =>
      rcases List.mem_cons.mp hy with rfl | hy
      · exact ⟨x, by simp, hxy⟩
      · obtain ⟨x', hx', hR⟩ := ih hy
        exact ⟨x', by simp [hx'], hR⟩

/-- A traversal fails as its first element that fails. -/
theorem mapM_eq_error_iff {e : ε} :
    xs.mapM f = .error e ↔ ∃ before x after, xs = before ++ x :: after ∧
      (∀ b ∈ before, ∃ y, f b = .ok y) ∧ f x = .error e := by
  induction xs with
  | nil => simp [pure, Except.pure]
  | cons x xs ih =>
      rw [List.mapM_cons]
      cases hx : f x with
      | error e' =>
          constructor
          · intro h
            obtain rfl : e' = e := by simpa [bind, Except.bind] using h
            exact ⟨[], x, xs, rfl, by simp, hx⟩
          · rintro ⟨before, z, after, heq, hbefore, hz⟩
            cases before with
            | nil =>
                obtain ⟨rfl, rfl⟩ := List.cons.inj heq
                rw [← hx, hz]
                rfl
            | cons b before =>
                obtain ⟨rfl, -⟩ := List.cons.inj heq
                obtain ⟨y, hy⟩ := hbefore x (by simp)
                simp [hx] at hy
      | ok y =>
          have hstep : (do let y' ← Except.ok y; let ys ← xs.mapM f; pure (y' :: ys)) = .error e ↔
              xs.mapM f = .error e := by
            cases xs.mapM f <;> simp [bind, Except.bind, pure, Except.pure]
          rw [hstep, ih]
          constructor
          · rintro ⟨before, z, after, rfl, hbefore, hz⟩
            exact ⟨x :: before, z, after, rfl, List.forall_mem_cons.mpr ⟨⟨y, hx⟩, hbefore⟩, hz⟩
          · rintro ⟨before, z, after, heq, hbefore, hz⟩
            cases before with
            | nil =>
                obtain ⟨rfl, rfl⟩ := List.cons.inj heq
                simp [hx] at hz
            | cons b before =>
                obtain ⟨rfl, rfl⟩ := List.cons.inj heq
                exact ⟨before, z, after, rfl, (List.forall_mem_cons.mp hbefore).2, hz⟩

end Traversal

namespace Corpus

variable {config : CorpusConfig} {number : Nat} {lines : List (List Char)}

/-- The lines that are kept, trimmed, each with its number. -/
def entries (config : CorpusConfig) (number : Nat) (lines : List (List Char)) :
    List (List Char × Nat) :=
  ((lines.map trim).zipIdx number).filter fun entry => isKept config entry.1

def parseEntry (config : CorpusConfig) (entry : List Char × Nat) : Except BuildError Expr :=
  (Expr.parseChars config.maxDepth.toNat entry.1).mapError fun fault =>
    .atLine entry.2 (.markup fault)

theorem entries_cons (line : List Char) : entries config number (line :: lines) =
    if isKept config (trim line) then (trim line, number) :: entries config (number + 1) lines
    else entries config (number + 1) lines := by
  rw [entries, List.map_cons, List.zipIdx_cons, List.filter_cons]
  rfl

theorem branches_eq_mapM : branches config number lines =
    (entries config number lines).mapM (parseEntry config) := by
  induction lines generalizing number with
  | nil => rfl
  | cons line lines ih =>
      rw [branches, entries_cons, ih]
      by_cases hkept : isKept config (trim line) = true
      · rw [if_pos hkept, if_pos hkept, List.mapM_cons]
        cases hparse : Expr.parseChars config.maxDepth.toNat (trim line) with
        | error fault => simp [parseEntry, hparse, Except.mapError, bind, Except.bind]
        | ok branch =>
            cases (entries config (number + 1) lines).mapM (parseEntry config) <;>
              simp [parseEntry, hparse, Except.mapError, Except.map, bind, Except.bind, pure,
                Except.pure]
      · rw [if_neg hkept, if_neg hkept]

theorem parseEntry_eq_ok_iff {entry : List Char × Nat} {e : Expr} :
    parseEntry config entry = .ok e ↔
      Expr.parseChars config.maxDepth.toNat entry.1 = .ok e := by
  unfold parseEntry
  cases Expr.parseChars config.maxDepth.toNat entry.1 <;> simp [Except.mapError]

theorem parseEntry_eq_error_iff {entry : List Char × Nat} {error : BuildError} :
    parseEntry config entry = .error error ↔
      ∃ fault, Expr.parseChars config.maxDepth.toNat entry.1 = .error fault ∧
        error = .atLine entry.2 (.markup fault) := by
  unfold parseEntry
  cases Expr.parseChars config.maxDepth.toNat entry.1 <;> simp [Except.mapError, eq_comm]

theorem entries_pairwise (config : CorpusConfig) (number : Nat) (lines : List (List Char)) :
    (entries config number lines).Pairwise fun entry other => entry.2 < other.2 := by
  apply List.Pairwise.filter
  have hnumbers : (((lines.map trim).zipIdx number).map Prod.snd).Pairwise (· < ·) := by
    rw [List.zipIdx_map_snd]
    exact List.pairwise_lt_range'
  exact List.pairwise_map.mp hnumbers

theorem entries_map_fst (config : CorpusConfig) (number : Nat) (lines : List (List Char)) :
    (entries config number lines).map Prod.fst = (lines.map trim).filter (isKept config) := by
  conv_rhs => rw [← List.zipIdx_map_fst number (lines.map trim), List.filter_map]
  rfl

/-- A corpus is the alternation between what its entries are parsed to, in their order. -/
theorem branches_eq_ok_iff {es : List Expr} : branches config number lines = .ok es ↔
    List.Forall₂ (fun line e => Expr.parseChars config.maxDepth.toNat line = .ok e)
      ((lines.map trim).filter (isKept config)) es := by
  rw [branches_eq_mapM, mapM_eq_ok_iff, ← entries_map_fst config number lines,
    List.forall₂_map_left_iff]
  simp only [parseEntry_eq_ok_iff]

theorem parse_eq (config : CorpusConfig) (text : String) : parse config text =
    ((entries config 1 (Corpus.lines text.toList)).mapM (parseEntry config)).bind
      Expr.alternation := by
  rw [parse, branches_eq_mapM]

theorem parse_eq_alt {text : String} {e : Expr} (h : parse config text = .ok e) :
    ∃ first rest, e = .alt first rest ∧
      List.Forall₂ (fun line branch => Expr.parseChars config.maxDepth.toNat line = .ok branch)
        (((Corpus.lines text.toList).map trim).filter (isKept config)) (first :: rest) := by
  rw [parse] at h
  cases hb : branches config 1 (Corpus.lines text.toList) with
  | error error => simp [hb, Except.bind] at h
  | ok es =>
      cases es with
      | nil => simp [hb, Except.bind, Expr.alternation] at h
      | cons first rest =>
          obtain rfl : .alt first rest = e := by
            simpa [hb, Except.bind, Expr.alternation] using h
          exact ⟨first, rest, rfl, branches_eq_ok_iff.mp hb⟩

theorem forall₂_of_parse {text : String} {first : Expr} {rest : List Expr}
    (h : parse config text = .ok (.alt first rest)) :
    List.Forall₂ (fun line branch => Expr.parseChars config.maxDepth.toNat line = .ok branch)
      (((Corpus.lines text.toList).map trim).filter (isKept config)) (first :: rest) := by
  obtain ⟨_, _, heq, hparsed⟩ := parse_eq_alt h
  obtain ⟨rfl, rfl⟩ := Expr.alt.inj heq
  exact hparsed

theorem alternation_eq_ok {es : List Expr} (h : es ≠ []) : ∃ e, Expr.alternation es = .ok e := by
  cases es with
  | nil => exact absurd rfl h
  | cons first rest => exact ⟨.alt first rest, rfl⟩

theorem parse_eq_atLine_iff {text : String} {source : BuildError} :
    parse config text = .error (.atLine number source) ↔
      (entries config 1 (Corpus.lines text.toList)).mapM (parseEntry config) =
        .error (.atLine number source) := by
  rw [parse_eq]
  cases (entries config 1 (Corpus.lines text.toList)).mapM (parseEntry config) with
  | error error => simp [Except.bind]
  | ok es => cases es <;> simp [Except.bind, Expr.alternation]

end Corpus

end ChoiceGrammar
