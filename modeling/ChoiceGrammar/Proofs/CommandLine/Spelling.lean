import ChoiceGrammar.CommandLine.Arguments
import Mathlib.Data.Nat.Notation

/-!
# Spelling command lines

Command lines that are read back as what they say: a number in decimal digits is read as that
number, a file name that looks like no option as that name, and a subcommand on a corpus file as
the request for that file, with or without a file of options.
-/

namespace ChoiceGrammar.CommandLine

theorem toList_toString (n : UInt64) : (toString n).toList = Nat.toDigits 10 n.toNat := by
  change (toString n.toNat).toList = _
  rw [Nat.toString_eq_ofList_toDigits, String.toList_ofList]

theorem foldl_toDigits (n : ℕ) :
    (Nat.toDigits 10 n).foldl (fun m c => m * 10 + (c.toNat - '0'.toNat)) 0 = n := by
  calc
    (Nat.toDigits 10 n).foldl (fun m c => m * 10 + (c.toNat - '0'.toNat)) 0
        = Nat.ofDigitChars 10 (Nat.toDigits 10 n) 0 := by
      simp only [Nat.ofDigitChars_eq_foldl, Nat.mul_comm]
    _ = n := Nat.ofDigitChars_ten_toDigits

theorem isDigit_of_mem_toString (n : UInt64) : ∀ c ∈ (toString n).toList, c.isDigit = true := by
  intro c hc
  rw [toList_toString] at hc
  exact Nat.isDigit_of_mem_toDigits (by decide) (by decide) hc

theorem number?_toString (n : UInt64) : number? (toString n) = some n := by
  have hdigits := isDigit_of_mem_toString n
  have hempty : (toString n).toList.isEmpty = false := by
    simp [toList_toString, Nat.toDigits_ne_nil]
  have hall : (toString n).toList.all Char.isDigit = true := List.all_eq_true.mpr hdigits
  have hfits : ¬ UInt64.size ≤ n.toNat := Nat.not_le.mpr n.toNat_lt_size
  unfold number?
  split
  · next digits heq =>
      have hplus := hdigits '+' (by simp [heq])
      exact absurd hplus (by decide)
  · have hvalue := foldl_toDigits n.toNat
    rw [← toList_toString] at hvalue
    simp only [hempty, hall, hvalue, hfits]
    simp

theorem eq_of_shape_eq_word {argument text : String} (h : shape argument = .word text) :
    text = argument := by
  unfold shape at h
  split at h
  · simp at h
  · dsimp only at h
    split at h <;> simp at h
  · simp at h
  · simpa using h.symm

theorem isValue_iff {argument : String} :
    isValue argument = true ↔ shape argument = .word argument := by
  constructor
  · intro h
    unfold isValue at h
    split at h
    · next text heq => rw [heq, eq_of_shape_eq_word heq]
    · simp at h
  · intro h
    rw [isValue, h]

theorem shape_of_ne_dash {argument : String} (h : argument.toList.head? ≠ some '-') :
    shape argument = .word argument := by
  unfold shape
  split
  · next heq => simp [heq] at h
  · next heq => simp [heq] at h
  · next heq => simp [heq] at h
  · rfl

theorem isValue_toString (n : UInt64) : isValue (toString n) = true := by
  apply isValue_iff.mpr
  apply shape_of_ne_dash
  intro hdash
  have hdigit := isDigit_of_mem_toString n '-' (List.mem_of_mem_head? hdash)
  exact absurd hdigit (by decide)

/-- A name that can stand as an argument of its own: not empty, and unlike an option. -/
structure IsFileName (name : String) : Prop where
  nonempty : name ≠ ""
  isValue : isValue name = true

namespace IsFileName

variable {name : String}

theorem shape (h : IsFileName name) : shape name = .word name := isValue_iff.mp h.isValue

theorem path? (h : IsFileName name) : path? name = some name := by
  simp [CommandLine.path?, h.nonempty]

end IsFileName

/-- The arguments that name a file of options, if there is one. -/
def optionArguments : Option String → List String
  | none => []
  | some path => ["--config", path]

def checkArguments (options : Option String) (path : String) : List String :=
  optionArguments options ++ ["check", path]

def inspectArguments (options : Option String) (path : String) : List String :=
  optionArguments options ++ ["inspect", "--corpus", path]

def generateArguments (options : Option String) (path : String) (seed count : UInt64) :
    List String :=
  optionArguments options ++
    ["generate", "--corpus", path, "--seed", toString seed, "--count", toString count]

section Requests

variable {options : Option String} {path : String}

/-- A subcommand is read after the file of options. -/
theorem ofArguments_verb (hoptions : ∀ name ∈ options, IsFileName name) (verb : Verb)
    (rest : List String) :
    Request.ofArguments (optionArguments options ++ verb.name :: rest) =
      readCommand options verb.name rest := by
  have hverb (config : Option String) :
      readProgram false config (verb.name :: rest) = readCommand config verb.name rest := by
    cases verb <;> rfl
  cases options with
  | none => exact hverb none
  | some name =>
      have hname := hoptions name rfl
      calc
        readProgram false none ("--config" :: name :: verb.name :: rest)
            = readProgram true none (name :: verb.name :: rest) := rfl
        _ = readProgram false (some name) (verb.name :: rest) := by
          rw [readProgram]
          simp [hname.isValue, hname.nonempty]
        _ = readCommand (some name) verb.name rest := hverb (some name)

theorem ofName?_name (verb : Verb) : Verb.ofName? verb.name = some verb := by
  cases verb <;> rfl

theorem ofArguments_check (hoptions : ∀ name ∈ options, IsFileName name) (hpath : IsFileName path) :
    Request.ofArguments (checkArguments options path) = .perform options (.check path) := by
  have hread := ofArguments_verb hoptions .check [path]
  rw [checkArguments]
  refine hread.trans ?_
  simp [readCommand, ofName?_name, Given.read, Given.fitting, Except.bind, hpath.shape,
    hpath.nonempty, Given.setOperand, Given.command, Given.nothing, Verb.accepts]

theorem ofArguments_inspect (hoptions : ∀ name ∈ options, IsFileName name)
    (hpath : IsFileName path) :
    Request.ofArguments (inspectArguments options path) =
      .perform options (.inspect (.corpus path)) := by
  have hread := ofArguments_verb hoptions .inspect ["--corpus", path]
  have hcorpus : shape "--corpus" = .long "corpus" none := rfl
  rw [inspectArguments]
  refine hread.trans ?_
  simp [readCommand, ofName?_name, Given.read, Given.fitting, Except.bind, hcorpus, hpath.isValue,
    hpath.path?, Given.setOption, Given.command, Given.nothing, Verb.hasSource, Given.isFlag,
    Given.source]

theorem ofArguments_generate (hoptions : ∀ name ∈ options, IsFileName name)
    (hpath : IsFileName path) (seed count : UInt64) :
    Request.ofArguments (generateArguments options path seed count) =
      .perform options (.generate (.corpus path) (.given seed) count) := by
  have hread := ofArguments_verb hoptions .generate
    ["--corpus", path, "--seed", toString seed, "--count", toString count]
  have hcorpus : shape "--corpus" = .long "corpus" none := rfl
  have hseed : shape "--seed" = .long "seed" none := rfl
  have hcount : shape "--count" = .long "count" none := rfl
  rw [generateArguments]
  refine hread.trans ?_
  simp [readCommand, ofName?_name, Given.read, Given.fitting, Except.bind, hcorpus, hseed, hcount,
    hpath.isValue, hpath.path?, Given.setOption, isValue_toString, number?_toString, Given.command,
    Given.nothing, Verb.hasSource, Given.isFlag, Given.source, Given.seeding]

end Requests

end ChoiceGrammar.CommandLine
