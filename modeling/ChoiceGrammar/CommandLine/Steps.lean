import ChoiceGrammar.CommandLine.Run

/-!
# The steps of a request

A request step by step: what it reads is loaded, and each line is printed before the next one is
made. A step that stops the request takes back nothing that has been printed. How a line is printed
is left to the monad, so that the steps can print to a console or to a record.
-/

namespace ChoiceGrammar.CommandLine

/-- What stops a request before its end. -/
inductive Stop where
  | failed (error : BuildError)
  | misused
  /-- A draw rejects every value that its source can give. -/
  | endless

def Stop.outcome : Stop → Outcome
  | failed error => .failed error
  | misused => .misused
  | endless => .endless

section Steps

variable {m : Type → Type} [Monad m] (print : String → m Unit)

/-- Goes on with a value, unless making it has failed. -/
def attempt {α : Type} : Except BuildError α → ExceptT Stop m α
  | .ok value => pure value
  | .error error => throw (.failed error)

def printAll : List String → ExceptT Stop m Unit
  | [] => pure ()
  | line :: lines => do
      print line
      printAll lines

/-- Prints the expansions of seeds that follow one another. -/
def printExpansions (e : Expr) (seed : UInt64) : Nat → ExceptT Stop m Unit
  | 0 => pure ()
  | count + 1 =>
      match e.expand seed with
      | none => throw .endless
      | some text => do
          print text
          printExpansions e (seed + 1) count

def Command.steps (around : Surroundings) (config : CorpusConfig) :
    Command → ExceptT Stop m Unit
  | generate source seeding count => do
      let e ← attempt (source.load around config)
      printExpansions print e (seeding.seed around) count.toNat
  | inspect source => do
      let e ← attempt (source.load around config)
      printAll print (inspection e)
  | encode expression => do
      let e ← attempt (Expr.ofText Expr.defaultMaxDepth.toNat expression)
      print e.encode
  | check path => do
      let e ← attempt (Corpus.ofFile config (around.read path))
      print (verdict path e)

def Request.steps (around : Surroundings) : Request → ExceptT Stop m Unit
  | version => print CommandLine.version
  | help => pure ()
  | misuse => throw .misused
  | perform config command => do
      let config ← attempt (loadConfig around config)
      command.steps print around config

end Steps

end ChoiceGrammar.CommandLine
