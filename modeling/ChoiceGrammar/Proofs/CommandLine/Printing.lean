import ChoiceGrammar.CommandLine.Steps
import Mathlib.Data.List.Basic

/-!
# What is printed before a failure

Every step of a request that can fail comes before the first line that is printed. So a request that
fails prints nothing, and taking its steps comes to its outcome. The options are used for corpus
files only: what a request makes of an expression or of a catalog does not depend on them.
-/

namespace ChoiceGrammar.CommandLine

/-- Prints a line to the end of a record. -/
def record (line : String) : StateM (List String) Unit := modify (· ++ [line])

/-- Steps that print to a record. -/
abbrev Recording : Type := ExceptT Stop (StateM (List String)) Unit

/-- How steps end, and what is on record then, when they begin with the given lines on record. -/
def recordFrom (before : List String) (steps : Recording) : Except Stop Unit × List String :=
  steps.run.run before

/-- How the steps of a request end, and the lines that they print. -/
def Request.recorded (around : Surroundings) (request : Request) :
    Except Stop Unit × List String :=
  recordFrom [] (request.steps record around)

/-- What a record comes to: the lines printed, or what stopped the steps. -/
def Outcome.ofRecord : Except Stop Unit × List String → Outcome
  | (.ok (), lines) => .printed lines
  | (.error stop, _) => stop.outcome

section Records

variable {before : List String}

theorem recordFrom_pure : recordFrom before (pure ()) = (.ok (), before) := rfl

theorem recordFrom_throw (stop : Stop) : recordFrom before (throw stop) = (.error stop, before) :=
  rfl

theorem recordFrom_print (line : String) :
    recordFrom before (record line : StateM (List String) Unit) = (.ok (), before ++ [line]) := rfl

theorem recordFrom_print_bind (line : String) (next : Recording) :
    recordFrom before (do record line; next) = recordFrom (before ++ [line]) next := rfl

theorem recordFrom_attempt_bind {α : Type} (made : Except BuildError α) (goOn : α → Recording) :
    recordFrom before (attempt made >>= goOn) =
      match made with
      | .ok value => recordFrom before (goOn value)
      | .error error => (.error (.failed error), before) := by
  cases made <;> rfl

theorem recordFrom_printAll (lines : List String) :
    recordFrom before (printAll record lines) = (.ok (), before ++ lines) := by
  induction lines generalizing before with
  | nil => rw [printAll, recordFrom_pure, List.append_nil]
  | cons line lines ih =>
      rw [printAll, recordFrom_print_bind, ih, List.append_assoc, List.singleton_append]

theorem recordFrom_printExpansions {e : Expr} {seed : UInt64} {count : Nat} {texts : List String}
    (h : expansions e seed count = some texts) :
    recordFrom before (printExpansions record e seed count) = (.ok (), before ++ texts) := by
  induction count generalizing before seed texts with
  | zero =>
      obtain rfl : [] = texts := Option.some.inj h
      rw [printExpansions, recordFrom_pure, List.append_nil]
  | succ count ih =>
      rw [expansions] at h
      rw [printExpansions]
      cases hfirst : e.expand seed with
      | none => simp [hfirst] at h
      | some text =>
          simp only [hfirst, Option.map_eq_some_iff] at h
          obtain ⟨others, hothers, rfl⟩ := h
          simp only [recordFrom_print_bind, ih hothers, List.append_assoc, List.singleton_append]

theorem exists_recordFrom_printExpansions {e : Expr} {seed : UInt64} {count : Nat}
    (h : expansions e seed count = none) (before : List String) :
    ∃ lines, recordFrom before (printExpansions record e seed count) =
      (.error .endless, before ++ lines) := by
  induction count generalizing before seed with
  | zero => simp [expansions] at h
  | succ count ih =>
      rw [expansions] at h
      rw [printExpansions]
      cases hfirst : e.expand seed with
      | none => exact ⟨[], by simp only [recordFrom_throw, List.append_nil]⟩
      | some text =>
          simp only [hfirst, Option.map_eq_none_iff] at h
          obtain ⟨lines, hlines⟩ := ih h (before ++ [text])
          refine ⟨text :: lines, ?_⟩
          simp only [recordFrom_print_bind, hlines, List.append_assoc, List.singleton_append]

end Records

/-- The steps do not fail, whatever else may stop them. -/
def NeverFails (steps : Recording) : Prop :=
  ∀ before error after, recordFrom before steps ≠ (.error (.failed error), after)

/-- If the steps fail, they have printed nothing before. -/
def FailsSilently (steps : Recording) : Prop :=
  ∀ before error after, recordFrom before steps = (.error (.failed error), after) → after = before

theorem NeverFails.failsSilently {steps : Recording} (h : NeverFails steps) :
    FailsSilently steps :=
  fun before error after hfailed => absurd hfailed (h before error after)

theorem failsSilently_attempt_bind {α : Type} {made : Except BuildError α} {goOn : α → Recording}
    (h : ∀ value, FailsSilently (goOn value)) : FailsSilently (attempt made >>= goOn) := by
  intro before error after hfailed
  rw [recordFrom_attempt_bind] at hfailed
  cases made with
  | ok value => exact h value before error after hfailed
  | error _ => exact (Prod.mk.inj hfailed).2.symm

theorem neverFails_print (line : String) :
    NeverFails (record line : StateM (List String) Unit) := by
  intro before error after
  simp [recordFrom_print]

theorem neverFails_printAll (lines : List String) : NeverFails (printAll record lines) := by
  intro before error after
  simp [recordFrom_printAll]

theorem neverFails_printExpansions (e : Expr) (seed : UInt64) (count : Nat) :
    NeverFails (printExpansions record e seed count) := by
  intro before error after
  cases htexts : expansions e seed count with
  | some texts => simp [recordFrom_printExpansions htexts]
  | none =>
      obtain ⟨lines, hlines⟩ := exists_recordFrom_printExpansions htexts before
      simp [hlines]

theorem failsSilently_command (around : Surroundings) (config : CorpusConfig) (command : Command) :
    FailsSilently (command.steps record around config) := by
  cases command with
  | generate source seeding count =>
      apply failsSilently_attempt_bind
      intro e
      exact (neverFails_printExpansions e (seeding.seed around) count.toNat).failsSilently
  | inspect source =>
      apply failsSilently_attempt_bind
      intro e
      exact (neverFails_printAll (inspection e)).failsSilently
  | encode expression =>
      apply failsSilently_attempt_bind
      intro e
      exact (neverFails_print e.encode).failsSilently
  | check path =>
      apply failsSilently_attempt_bind
      intro e
      exact (neverFails_print (verdict path e)).failsSilently

theorem failsSilently_request (around : Surroundings) (request : Request) :
    FailsSilently (request.steps record around) := by
  cases request with
  | perform options command =>
      apply failsSilently_attempt_bind
      intro config
      exact failsSilently_command around config command
  | version => exact (neverFails_print version).failsSilently
  | help => exact (neverFails_printAll []).failsSilently
  | misuse =>
      intro before error after hfailed
      exact (Prod.mk.inj hfailed).2.symm

theorem ofRecord_attempt_bind {α : Type} {made : Except BuildError α} {goOn : α → Recording}
    {result : α → Outcome}
    (h : ∀ value, Outcome.ofRecord (recordFrom [] (goOn value)) = result value) :
    Outcome.ofRecord (recordFrom [] (attempt made >>= goOn)) =
      match made.map result with
      | .ok outcome => outcome
      | .error error => .failed error := by
  rw [recordFrom_attempt_bind]
  cases made with
  | ok value => exact h value
  | error error => rfl

theorem ofRecord_printExpansions (e : Expr) (seed : UInt64) (count : Nat) :
    Outcome.ofRecord (recordFrom [] (printExpansions record e seed count)) =
      match expansions e seed count with
      | some texts => .printed texts
      | none => .endless := by
  cases htexts : expansions e seed count with
  | some texts =>
      rw [recordFrom_printExpansions htexts]
      rfl
  | none =>
      obtain ⟨lines, hlines⟩ := exists_recordFrom_printExpansions htexts []
      rw [hlines]
      rfl

theorem ofRecord_command (around : Surroundings) (config : CorpusConfig) (command : Command) :
    Outcome.ofRecord (recordFrom [] (command.steps record around config)) =
      match command.run around config with
      | .ok outcome => outcome
      | .error error => .failed error := by
  cases command with
  | generate source seeding count =>
      apply ofRecord_attempt_bind
      intro e
      exact ofRecord_printExpansions e (seeding.seed around) count.toNat
  | inspect source =>
      apply ofRecord_attempt_bind
      intro e
      rw [recordFrom_printAll]
      rfl
  | encode expression =>
      apply ofRecord_attempt_bind
      intro e
      rw [recordFrom_print]
      rfl
  | check path =>
      apply ofRecord_attempt_bind
      intro e
      rw [recordFrom_print]
      rfl

/-- The steps of a request come to its outcome. -/
theorem ofRecord_recorded (around : Surroundings) (request : Request) :
    Outcome.ofRecord (request.recorded around) = request.run around := by
  cases request with
  | perform options command =>
      rw [Request.recorded, Request.steps, recordFrom_attempt_bind, Request.run]
      cases loadConfig around options with
      | error error => rfl
      | ok config => exact ofRecord_command around config command
  | version => rfl
  | help => rfl
  | misuse => rfl

/-- The commands that read no corpus file, nor the time. -/
inductive Command.Standalone : Command → Prop where
  | encode (expression : String) : Standalone (.encode expression)
  | inspect (catalog : Catalog) : Standalone (.inspect (.catalog catalog))
  | generate (catalog : Catalog) (seed count : UInt64) :
      Standalone (.generate (.catalog catalog) (.given seed) count)

theorem steps_of_standalone {m : Type → Type} [Monad m] (print : String → m Unit)
    {command : Command} (h : command.Standalone) (around around' : Surroundings)
    (config config' : CorpusConfig) :
    command.steps print around config = command.steps print around' config' := by
  cases h with
  | encode expression => rfl
  | inspect catalog => rfl
  | generate catalog seed count => rfl

theorem recorded_perform {around : Surroundings} {options : Option String} {config : CorpusConfig}
    (h : loadConfig around options = .ok config) (command : Command) :
    (Request.perform options command).recorded around =
      recordFrom [] (command.steps record around config) := by
  rw [Request.recorded, Request.steps, recordFrom_attempt_bind, h]

theorem recorded_of_standalone {command : Command} (hcommand : command.Standalone)
    {around around' : Surroundings} {options options' : Option String}
    {config config' : CorpusConfig} (h : loadConfig around options = .ok config)
    (h' : loadConfig around' options' = .ok config') :
    (Request.perform options' command).recorded around' =
      (Request.perform options command).recorded around := by
  rw [recorded_perform h, recorded_perform h',
    steps_of_standalone record hcommand around' around config' config]

theorem exists_failed_of_exitCode {outcome : Outcome} (h : outcome.exitCode? = some 1) :
    ∃ error, outcome = .failed error := by
  cases outcome with
  | failed error => exact ⟨error, rfl⟩
  | printed _ => simp [Outcome.exitCode?] at h
  | misused => simp [Outcome.exitCode?] at h
  | endless => simp [Outcome.exitCode?] at h

theorem recorded_of_failed {around : Surroundings} {request : Request} {error : BuildError}
    (h : request.run around = .failed error) :
    request.recorded around = (.error (.failed error), []) := by
  rw [← ofRecord_recorded] at h
  cases hrecord : request.recorded around with
  | mk ending lines =>
      rw [hrecord] at h
      match ending with
      | .ok () => cases h
      | .error (.failed _) =>
          obtain rfl := Outcome.failed.inj h
          obtain rfl := failsSilently_request around request [] _ lines hrecord
          rfl
      | .error .misused => cases h
      | .error .endless => cases h

theorem run_of_loadConfig {around : Surroundings} {path : String} {error : BuildError}
    (h : Corpus.configOfFile (around.read path) = .error error) (command : Command) :
    (Request.perform (some path) command).run around = .failed error := by
  simp only [Request.run, loadConfig, h, Except.bind]

/-- The steps of a command line come to its outcome. Where a file of options cannot be loaded, its
error is the outcome of every command; where the outcome is an error, nothing has been printed; and
a command that reads no corpus file prints the same and ends in the same way under any options. -/
theorem failing_run_prints_nothing (around : Surroundings) (arguments : List String) :
    let request := Request.ofArguments arguments
    let outcome := run around arguments
    outcome = .ofRecord (request.recorded around) ∧
    (∀ path command error, request = .perform (some path) command →
      Corpus.configOfFile (around.read path) = .error error →
        outcome.exitCode? = some 1 ∧ outcome.report? = some error.outline) ∧
    (outcome.exitCode? = some 1 → (request.recorded around).2 = [] ∧ outcome.output = "") ∧
    ∀ options command config, request = .perform options command → command.Standalone →
      loadConfig around options = .ok config →
        ∀ around' arguments' options' config',
          Request.ofArguments arguments' = .perform options' command →
            loadConfig around' options' = .ok config' →
              (Request.ofArguments arguments').recorded around' = request.recorded around ∧
                run around' arguments' = outcome := by
  intro request outcome
  refine ⟨(ofRecord_recorded around request).symm, ?_, ?_, ?_⟩
  · intro path command error hrequest hconfig
    have houtcome : outcome = .failed error := by
      change request.run around = _
      rw [hrequest]
      exact run_of_loadConfig hconfig command
    rw [houtcome]
    exact ⟨rfl, rfl⟩
  · intro hcode
    obtain ⟨error, hfailed⟩ := exists_failed_of_exitCode hcode
    rw [recorded_of_failed hfailed, hfailed]
    exact ⟨rfl, rfl⟩
  · intro options command config hrequest hcommand hconfig around' arguments' options' config'
      hrequest' hconfig'
    have hsame : (Request.ofArguments arguments').recorded around' = request.recorded around := by
      rw [hrequest, hrequest']
      exact recorded_of_standalone hcommand hconfig hconfig'
    refine ⟨hsame, ?_⟩
    change (Request.ofArguments arguments').run around' = request.run around
    rw [← ofRecord_recorded, ← ofRecord_recorded, hsame]

/-- A file of options that is cut off; and one under which no alternation of a corpus could be read,
beside no options at all. -/
theorem failing_run_prints_nothing_cut_off :
    let around : Surroundings := ⟨0, fun path =>
      if path = "cut.json" then .ok "\x7b".toUTF8
      else if path = "flat.json" then .ok "\x7b\"max_depth\":0\x7d".toUTF8
      else .error .notFound⟩
    let bad := ["inspect", "--catalog", "ooo", "--config", "cut.json"]
    ((run around bad).exitCode? = some 1 ∧ (run around bad).output = "") ∧
      run around ["--config", "flat.json", "encode", "<a|<b>>"] =
        run around ["encode", "--", "<a|<b>>"] := by
  intro around bad
  have hbad : Request.ofArguments bad =
      .perform (some "cut.json") (.inspect (.catalog .outOfOffice)) := by decide +kernel
  obtain ⟨error, hcut⟩ : ∃ error, Corpus.configOfFile (around.read "cut.json") = .error error := by
    have hnone : (Corpus.configOfFile (around.read "cut.json")).toOption.isSome = false := by
      decide +kernel
    cases hload : Corpus.configOfFile (around.read "cut.json") with
    | ok config => simp [hload, Except.toOption] at hnone
    | error error => exact ⟨error, rfl⟩
  obtain ⟨-, hoptions, hsilent, -⟩ := failing_run_prints_nothing around bad
  obtain ⟨hcode, -⟩ := hoptions _ _ _ hbad hcut
  have hplain : Request.ofArguments ["encode", "--", "<a|<b>>"] =
      .perform none (.encode "<a|<b>>") := by decide +kernel
  have hwith : Request.ofArguments ["--config", "flat.json", "encode", "<a|<b>>"] =
      .perform (some "flat.json") (.encode "<a|<b>>") := by decide +kernel
  obtain ⟨config, hflat⟩ : ∃ config, loadConfig around (some "flat.json") = .ok config := by
    have hsome : (loadConfig around (some "flat.json")).toOption.isSome = true := by decide +kernel
    cases hload : loadConfig around (some "flat.json") with
    | ok config => exact ⟨config, rfl⟩
    | error error => simp [hload, Except.toOption] at hsome
  obtain ⟨-, -, -, hsame⟩ := failing_run_prints_nothing around ["encode", "--", "<a|<b>>"]
  have hequal := hsame none _ .default hplain (.encode "<a|<b>>") rfl around _ _ _ hwith hflat
  exact ⟨⟨hcode, (hsilent hcode).2⟩, hequal.2⟩

end ChoiceGrammar.CommandLine
