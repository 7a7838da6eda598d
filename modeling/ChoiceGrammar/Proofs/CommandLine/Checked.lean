import ChoiceGrammar.CommandLine.Run
import ChoiceGrammar.Proofs.CommandLine.Spelling
import ChoiceGrammar.Proofs.Corpus.Branches
import ChoiceGrammar.Proofs.Expansion.Endless

/-!
# Checked corpora

The subcommands on a corpus file load it in the same way, so that they fail together. Where a check
passes, the corpus can be inspected and generates a line for each of the seeds that follow one
another. The lines are plain, within the length that the check reports, and no more of them differ
than the count that it reports.
-/

namespace ChoiceGrammar.CommandLine

open Markup

/-- The expression of a corpus file, under the options of another file if there is one. -/
def loaded (around : Surroundings) (options : Option String) (path : String) :
    Except BuildError Expr :=
  (loadConfig around options).bind fun config => Corpus.ofFile config (around.read path)

section Runs

variable {around : Surroundings} {options : Option String} {path : String}

theorem run_perform {command : Command} {goOn : Expr → Outcome}
    (hcommand : ∀ config, command.run around config =
      (Corpus.ofFile config (around.read path)).map goOn) :
    (Request.perform options command).run around =
      match loaded around options path with
      | .ok e => goOn e
      | .error error => .failed error := by
  cases hconfig : loadConfig around options with
  | error error => simp [Request.run, loaded, hconfig, Except.bind]
  | ok config =>
      simp only [Request.run, loaded, hconfig, Except.bind, hcommand]
      cases Corpus.ofFile config (around.read path) <;> rfl

/-- The expansions of an expression, printed if all of them end. -/
def generation (e : Expr) (seed count : UInt64) : Outcome :=
  match expansions e seed count.toNat with
  | some texts => .printed texts
  | none => .endless

variable (hoptions : ∀ name ∈ options, IsFileName name) (hpath : IsFileName path)

include hoptions hpath

theorem run_check : run around (checkArguments options path) =
    match loaded around options path with
    | .ok e => .printed [verdict path e]
    | .error error => .failed error := by
  rw [run, ofArguments_check hoptions hpath]
  apply run_perform
  intro config
  rfl

theorem run_inspect : run around (inspectArguments options path) =
    match loaded around options path with
    | .ok e => .printed (inspection e)
    | .error error => .failed error := by
  rw [run, ofArguments_inspect hoptions hpath]
  apply run_perform
  intro config
  rfl

theorem run_generate (seed count : UInt64) :
    run around (generateArguments options path seed count) =
      match loaded around options path with
      | .ok e => generation e seed count
      | .error error => .failed error := by
  rw [run, ofArguments_generate hoptions hpath]
  apply run_perform
  intro config
  rfl

end Runs

section Expansions

variable {e : Expr} {seed : UInt64} {n : Nat}

theorem seed_succ (seed : UInt64) (i : Nat) : seed + .ofNat (i + 1) = seed + 1 + .ofNat i := by
  rw [Nat.add_comm, UInt64.ofNat_add, ← UInt64.add_assoc]
  rfl

theorem expansions_eq_some {texts : List String} (h : expansions e seed n = some texts) :
    texts.length = n ∧ ∀ i < n, texts[i]? = e.expand (seed + .ofNat i) := by
  induction n generalizing seed texts with
  | zero =>
      obtain rfl : [] = texts := Option.some.inj h
      simp
  | succ n ih =>
      rw [expansions] at h
      cases hfirst : e.expand seed with
      | none => simp [hfirst] at h
      | some text =>
          simp only [hfirst, Option.map_eq_some_iff] at h
          obtain ⟨others, hothers, rfl⟩ := h
          obtain ⟨hlength, hexpand⟩ := ih hothers
          refine ⟨by rw [List.length_cons, hlength], ?_⟩
          intro i hi
          cases i with
          | zero => simpa using hfirst.symm
          | succ i =>
              rw [seed_succ, ← hexpand i (Nat.lt_of_succ_lt_succ hi)]
              rfl

theorem expansions_eq_none (h : expansions e seed n = none) :
    ∃ i < n, e.expand (seed + .ofNat i) = none := by
  induction n generalizing seed with
  | zero => simp [expansions] at h
  | succ n ih =>
      rw [expansions] at h
      cases hfirst : e.expand seed with
      | none => exact ⟨0, Nat.succ_pos n, by simpa using hfirst⟩
      | some text =>
          simp only [hfirst, Option.map_eq_none_iff] at h
          obtain ⟨i, hi, hexpand⟩ := ih h
          refine ⟨i + 1, Nat.succ_lt_succ hi, ?_⟩
          rw [seed_succ]
          exact hexpand

end Expansions

/-- The lines that are generated for an expression: one for each seed, the seeds following one
another, with no delimiter or line feed in them and within the length of the expression. No more of
them differ than its count says, unless that is stuck. -/
structure Series (e : Expr) (seed count : UInt64) (texts : List String) : Prop where
  length_eq : texts.length = count.toNat
  expand_eq : ∀ i < count.toNat, texts[i]? = e.expand (seed + .ofNat i)
  plain : ∀ text ∈ texts, ∀ c ∈ text.toList, isDelimiter c = false ∧ c ≠ '\n'
  size_le : ∀ text ∈ texts, text.utf8ByteSize ≤ e.maxLength.toNat
  card_le : e.count.toNat < 2 ^ 64 - 1 → texts.toFinset.card ≤ e.count.toNat

theorem fromUTF8?_size {bytes : ByteArray} {text : String}
    (h : String.fromUTF8? bytes = some text) :
    text.utf8ByteSize = bytes.size := by
  unfold String.fromUTF8? at h
  split at h
  · obtain rfl := Option.some.inj h
    rfl
  · simp at h

theorem loaded_eq_ok {around : Surroundings} {options : Option String} {path : String} {e : Expr}
    (h : loaded around options path = .ok e) :
    ∃ config bytes text, around.read path = .ok bytes ∧ text.utf8ByteSize = bytes.size ∧
      Corpus.parse config text = .ok e := by
  unfold loaded at h
  cases hconfig : loadConfig around options with
  | error error => simp [hconfig, Except.bind] at h
  | ok config =>
      cases hread : around.read path with
      | error failure => simp [hconfig, hread, Except.bind, Corpus.ofFile, Corpus.decode] at h
      | ok bytes =>
          cases htext : String.fromUTF8? bytes with
          | none => simp [hconfig, hread, htext, Except.bind, Corpus.ofFile, Corpus.decode] at h
          | some text =>
              refine ⟨config, bytes, text, rfl, fromUTF8?_size htext, ?_⟩
              simpa [hconfig, hread, htext, Except.bind, Corpus.ofFile, Corpus.decode] using h

theorem generation_of_loaded {around : Surroundings} {options : Option String} {path : String}
    {e : Expr} (h : loaded around options path = .ok e)
    (hsize : ∀ bytes, around.read path = .ok bytes → bytes.size < 2 ^ 64) (seed count : UInt64) :
    (∃ texts, generation e seed count = .printed texts ∧ Series e seed count texts) ∨
      generation e seed count = .endless ∧
        ∃ i < count.toNat, ∃ first rest position, Expr.IsPart (.alt first rest) e ∧
          Draw.RejectsForever (.seeded (seed + .ofNat i)) (Expr.totalWeight (first :: rest))
            position := by
  obtain ⟨_, bytes, text, hread, hbytes, hparse⟩ := loaded_eq_ok h
  have hfits : text.utf8ByteSize < 2 ^ 64 := by
    rw [hbytes]
    exact hsize bytes hread
  unfold generation
  cases htexts : expansions e seed count.toNat with
  | none =>
      right
      obtain ⟨i, hi, hnone⟩ := expansions_eq_none htexts
      exact ⟨rfl, i, hi, Expr.exists_rejectsForever_of_expand hnone⟩
  | some texts =>
      left
      obtain ⟨hlength, hexpand⟩ := expansions_eq_some htexts
      have hmem : ∀ text ∈ texts, text ∈ e.language := by
        intro text htext
        obtain ⟨i, hi, htext⟩ := List.mem_iff_getElem.mp htext
        have hsome := hexpand i (hlength ▸ hi)
        rw [List.getElem?_eq_getElem hi, htext] at hsome
        exact Expr.mem_language_of_expand hsome.symm
      refine ⟨texts, rfl, hlength, hexpand, ?_, ?_, ?_⟩
      · intro text htext
        exact Corpus.plain_of_mem_language hparse (hmem text htext)
      · intro text htext
        rw [Expr.maxLength_toNat e (Nat.lt_of_le_of_lt (Corpus.longest_le_of_parse hparse) hfits)]
        exact Expr.utf8ByteSize_le_longest (hmem text htext)
      · intro hcount
        exact Expr.card_le_count (Corpus.narrow_of_parse hparse hfits) hcount hmem

/-- A corpus file that passes a check can be inspected with the same count and length, and generates
as the check promises from every seed on, unless a draw of one of its alternations never ends on the
stream of one of the seeds. Where the check fails, the other subcommands fail with the same error.
-/
theorem run_checked_corpus {around : Surroundings} {options : Option String} {path : String}
    (hoptions : ∀ name ∈ options, IsFileName name) (hpath : IsFileName path)
    (hsize : ∀ bytes, around.read path = .ok bytes → bytes.size < 2 ^ 64) :
    let check := run around (checkArguments options path)
    let inspect := run around (inspectArguments options path)
    let generate seed count := run around (generateArguments options path seed count)
    (check.exitCode? = some 0 ∨ check.exitCode? = some 1) ∧
      (check.exitCode? = some 0 → ∃ e, loaded around options path = .ok e ∧
        check.output = path ++ ": OK (" ++ toString e.count ++ " possible outputs, longest " ++
          toString e.maxLength ++ " bytes)" ++ "\n" ∧
        inspect.exitCode? = some 0 ∧
        inspect.output = "count: " ++ toString e.count ++ "\n" ++
          "max length: " ++ toString e.maxLength ++ "\n" ++ e.dump ++ "\n" ∧
        ∀ seed count,
          (∃ texts, (generate seed count).exitCode? = some 0 ∧
            (generate seed count).output = .join (texts.map (· ++ "\n")) ∧
            Series e seed count texts) ∨
          (generate seed count).exitCode? = none ∧
            ∃ i < count.toNat, ∃ first rest position, Expr.IsPart (.alt first rest) e ∧
              Draw.RejectsForever (.seeded (seed + .ofNat i)) (Expr.totalWeight (first :: rest))
                position) ∧
      (check.exitCode? = some 1 → ∃ error, check = .failed error ∧ inspect = .failed error ∧
        ∀ seed count, generate seed count = .failed error) := by
  intro check inspect generate
  have hcheck : check = _ := run_check hoptions hpath
  have hinspect : inspect = _ := run_inspect hoptions hpath
  have hgenerate : ∀ seed count, generate seed count = _ := run_generate hoptions hpath
  cases hloaded : loaded around options path with
  | error error =>
      simp only [hloaded] at hcheck hinspect hgenerate
      have hcode : check.exitCode? = some 1 := by rw [hcheck, Outcome.exitCode?]
      refine ⟨.inr hcode, ?_, ?_⟩
      · intro hzero
        simp [hcode] at hzero
      · intro _
        exact ⟨error, hcheck, hinspect, hgenerate⟩
  | ok e =>
      simp only [hloaded] at hcheck hinspect hgenerate
      have hcode : check.exitCode? = some 0 := by rw [hcheck, Outcome.exitCode?]
      refine ⟨.inl hcode, ?_, ?_⟩
      · intro _
        refine ⟨e, rfl, ?_, ?_, ?_, ?_⟩
        · rw [hcheck]
          simp [Outcome.output, verdict]
        · rw [hinspect, Outcome.exitCode?]
        · rw [hinspect]
          simp only [Outcome.output, inspection, List.map_cons, List.map_nil, String.join_cons,
            String.join_nil, String.append_assoc, String.append_empty]
        · intro seed count
          rw [hgenerate]
          rcases generation_of_loaded hloaded hsize seed count with
            ⟨texts, htexts, hseries⟩ | ⟨hendless, hstuck⟩
          · left
            exact ⟨texts, by rw [htexts, Outcome.exitCode?], by rw [htexts, Outcome.output], hseries⟩
          · right
            exact ⟨by rw [hendless, Outcome.exitCode?], hstuck⟩
      · intro hone
        simp [hcode] at hone

/-- Under options that skip blank lines, two lines of four are expressions. Two expansions end. -/
theorem run_checked_corpus_skipping :
    let around : Surroundings := ⟨0, fun path =>
      if path = "list.txt" then .ok "# tea\n<a|b>\r\n\nc\n".toUTF8
      else if path = "options.json" then .ok "\x7b\"skip_blank_lines\": true\x7d".toUTF8
      else .error .notFound⟩
    let options := some "options.json"
    let generate := run around (generateArguments options "list.txt" 0 2)
    (run around (checkArguments options "list.txt")).exitCode? = some 0 ∧
      generate.exitCode? = some 0 ∧
      ∃ e texts, generate.output = .join (texts.map (· ++ "\n")) ∧
        Series e 0 2 texts := by
  intro around options generate
  have hoptions : ∀ name ∈ options, IsFileName name := by
    intro name hname
    obtain rfl := Option.some.inj hname
    exact ⟨by decide, by decide⟩
  have hpath : IsFileName "list.txt" := ⟨by decide, by decide⟩
  have hsize : ∀ bytes, around.read "list.txt" = .ok bytes → bytes.size < 2 ^ 64 := by
    intro bytes hbytes
    obtain rfl := Except.ok.inj hbytes
    decide
  have hcheck : (run around (checkArguments options "list.txt")).exitCode? = some 0 := by
    decide +kernel
  have hgenerate : generate.exitCode? = some 0 := by decide +kernel
  obtain ⟨-, hpassed, -⟩ := run_checked_corpus hoptions hpath hsize
  obtain ⟨e, -, -, -, -, hseeds⟩ := hpassed hcheck
  rcases hseeds 0 2 with ⟨texts, -, houtput, hseries⟩ | ⟨hendless, -⟩
  · exact ⟨hcheck, hgenerate, e, texts, houtput, hseries⟩
  · exact absurd (hgenerate.symm.trans hendless) (by simp)

end ChoiceGrammar.CommandLine
