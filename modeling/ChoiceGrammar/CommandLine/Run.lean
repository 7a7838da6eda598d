import ChoiceGrammar.CommandLine.Arguments
import ChoiceGrammar.Expr.Count
import ChoiceGrammar.Expr.Dump
import ChoiceGrammar.Expr.Encode
import ChoiceGrammar.Expr.Expand
import ChoiceGrammar.TimeSlot

/-!
# Running a command

A command reads its files, and either fails with an error and prints nothing or prints lines. The
file of options is read before anything else, whatever the command, and bears on corpus files only.
-/

namespace ChoiceGrammar.CommandLine

/-- What a command can see: the time in nanoseconds since the epoch, and the contents of files. -/
structure Surroundings where
  now : Int
  read : String → Except ReadFailure ByteArray

inductive Outcome where
  | printed (lines : List String)
  | failed (error : BuildError)
  | misused
  /-- A draw rejects every value that its source can give. -/
  | endless

namespace Outcome

def exitCode? : Outcome → Option UInt32
  | printed _ => some 0
  | failed _ => some 1
  | misused => some 2
  | endless => none

/-- Everything printed, each line with its end. -/
def output : Outcome → String
  | printed lines => .join (lines.map (· ++ "\n"))
  | _ => ""

/-- What is reported about an error. -/
def report? : Outcome → Option String
  | failed error => some error.outline
  | _ => none

end Outcome

def version : String := "excuse-gen 0.1.0"

def loadConfig (around : Surroundings) : Option String → Except BuildError CorpusConfig
  | none => .ok .default
  | some path => Corpus.configOfFile (around.read path)

def Source.load (around : Surroundings) (config : CorpusConfig) : Source → Except BuildError Expr
  | corpus path => Corpus.ofFile config (around.read path)
  | catalog chosen => chosen.build

def Seeding.seed (around : Surroundings) : Seeding → UInt64
  | given seed => seed
  | slot => TimeSlot.seed around.now TimeSlot.fiveMinutes
  | now => TimeSlot.seed around.now 0

def expansions (e : Expr) (seed : UInt64) : Nat → Option (List String)
  | 0 => some []
  | count + 1 =>
      match e.expand seed with
      | none => none
      | some text => (expansions e (seed + 1) count).map (text :: ·)

def inspection (e : Expr) : List String :=
  ["count: " ++ toString e.count, "max length: " ++ toString e.maxLength, e.dump]

def verdict (path : String) (e : Expr) : String :=
  path ++ ": OK (" ++ toString e.count ++ " possible outputs, longest " ++ toString e.maxLength
    ++ " bytes)"

def Command.run (around : Surroundings) (config : CorpusConfig) :
    Command → Except BuildError Outcome
  | generate source seeding count =>
      (source.load around config).map fun e =>
        match expansions e (seeding.seed around) count.toNat with
        | some texts => .printed texts
        | none => .endless
  | inspect source => (source.load around config).map fun e => .printed (inspection e)
  | encode expression =>
      (Expr.ofText Expr.defaultMaxDepth.toNat expression).map fun e => .printed [e.encode]
  | check path =>
      (Corpus.ofFile config (around.read path)).map fun e => .printed [verdict path e]

def Request.run (around : Surroundings) : Request → Outcome
  | version => .printed [CommandLine.version]
  -- the text of help is left out
  | help => .printed []
  | misuse => .misused
  | perform config command =>
      match (loadConfig around config).bind fun config => command.run around config with
      | .ok outcome => outcome
      | .error error => .failed error

def run (around : Surroundings) (arguments : List String) : Outcome :=
  (Request.ofArguments arguments).run around

end ChoiceGrammar.CommandLine
