import ChoiceGrammar.Catalog.Basic

/-!
# Command line arguments

Arguments are read from left to right: options of the program, a subcommand, and then options and
operands of the subcommand. The program's own options may stand in either place. An option takes
its value from behind an equals sign or from the next argument, which must not look like an option.
After `--` everything is an operand. The first argument that does not fit makes the whole line a
misuse, unless help has been asked for before it.
-/

namespace ChoiceGrammar.CommandLine

inductive Source where
  | corpus (path : String)
  | catalog (catalog : Catalog)
  deriving DecidableEq, Repr

/-- What the seed of the first expansion is. -/
inductive Seeding where
  | given (seed : UInt64)
  /-- The five-minute slot of the current time. -/
  | slot
  /-- The current time itself. -/
  | now
  deriving DecidableEq, Repr

inductive Command where
  | generate (source : Source) (seeding : Seeding) (count : UInt64)
  | inspect (source : Source)
  | encode (expression : String)
  | check (path : String)
  deriving DecidableEq, Repr

inductive Request where
  | perform (config : Option String) (command : Command)
  | version
  | help
  | misuse
  deriving DecidableEq, Repr

/-- The files that a request may read. -/
def Request.paths : Request → List String
  | perform config (.generate (.corpus path) _ _) => config.toList ++ [path]
  | perform config (.inspect (.corpus path)) => config.toList ++ [path]
  | perform config (.check path) => config.toList ++ [path]
  | perform config _ => config.toList
  | version => []
  | help => []
  | misuse => []

inductive Shape where
  /-- `--` by itself. -/
  | separator
  /-- `--name` or `--name=value`. -/
  | long (name : String) (value : Option String)
  /-- A dash and letters. -/
  | short (letters : List Char)
  | word (text : String)

def shape (argument : String) : Shape :=
  match argument.toList with
  | ['-', '-'] => .separator
  | '-' :: '-' :: body =>
      let name := body.takeWhile (· != '=')
      match body.dropWhile (· != '=') with
      | [] => .long (.ofList name) none
      | _ :: value => .long (.ofList name) (some (.ofList value))
  | '-' :: letter :: letters => .short (letter :: letters)
  | _ => .word argument

def isValue (argument : String) : Bool :=
  match shape argument with
  | .word _ => true
  | _ => false

/-- A number of 64 bits in decimal digits, with leading zeros or a plus sign if need be. -/
def number? (text : String) : Option UInt64 :=
  let digits :=
    match text.toList with
    | '+' :: digits => digits
    | digits => digits
  let value := digits.foldl (fun n c => n * 10 + (c.toNat - '0'.toNat)) 0
  if digits.isEmpty || !digits.all Char.isDigit || UInt64.size ≤ value then none
  else some (.ofNat value)

def path? (text : String) : Option String := if text.isEmpty then none else some text

inductive Verb where
  | generate
  | inspect
  | encode
  | check
  deriving DecidableEq

namespace Verb

def name : Verb → String
  | generate => "generate"
  | inspect => "inspect"
  | encode => "encode"
  | check => "check"

def all : List Verb := [generate, inspect, encode, check]

def ofName? (name : String) : Option Verb := all.find? (·.name == name)

def hasSource : Verb → Bool
  | generate | inspect => true
  | encode | check => false

/-- Whether a text can be the operand of the subcommand: any expression, but no empty file name. -/
def accepts (text : String) : Verb → Bool
  | generate | inspect => false
  | encode => true
  | check => !text.isEmpty

end Verb

structure Given where
  config : Option String
  corpus : Option String
  catalog : Option Catalog
  seed : Option UInt64
  count : Option UInt64
  raw : Bool
  operand : Option String

namespace Given

def nothing : Given := ⟨none, none, none, none, none, false, none⟩

/-- Sets an option that takes a value; no option may be given twice. -/
def setOption (given : Given) (verb : Verb) (name value : String) : Option Given :=
  match name with
  | "config" =>
      if given.config.isNone then (path? value).map ({ given with config := some · }) else none
  | "corpus" =>
      if verb.hasSource && given.corpus.isNone then
        (path? value).map ({ given with corpus := some · })
      else none
  | "catalog" =>
      if verb.hasSource && given.catalog.isNone then
        (Catalog.ofName value).toOption.map ({ given with catalog := some · })
      else none
  | "seed" =>
      if verb == .generate && given.seed.isNone then
        (number? value).map ({ given with seed := some · })
      else none
  | "count" =>
      if verb == .generate && given.count.isNone then
        (number? value).map ({ given with count := some · })
      else none
  | _ => none

/-- Sets an option without a value. Verbosity may be raised any number of times. -/
def setFlag (given : Given) (verb : Verb) (name : String) : Option Given :=
  match name with
  | "debug" => some given
  | "raw" => if verb == .generate && !given.raw then some { given with raw := true } else none
  | _ => none

def setOperand (given : Given) (verb : Verb) (text : String) : Option Given :=
  if verb.accepts text && given.operand.isNone then some { given with operand := some text }
  else none

def isFlag (name : String) : Bool := name == "debug" || name == "raw"

/-- What has been given so far, if the last argument fits. -/
def fitting : Option Given → Except Request Given
  | some given => .ok given
  | none => .error .misuse

def readOperands (verb : Verb) : Given → List String → Except Request Given
  | given, [] => .ok given
  | given, text :: rest => (fitting (given.setOperand verb text)).bind (readOperands verb · rest)

/-- Reads letters after a dash: verbosity may be raised, then the first other letter counts. -/
def readLetters (given : Given) (letters : List Char) : Except Request Given :=
  match letters.find? (· != 'd') with
  | none => .ok given
  | some 'h' => .error .help
  | some _ => .error .misuse

/-- Reads the arguments of a subcommand; `due` is an option that waits for its value. -/
def read (verb : Verb) : (due : Option String) → Given → List String → Except Request Given
  | none, given, [] => .ok given
  | some _, _, [] => .error .misuse
  | some name, given, text :: rest =>
      if isValue text then (fitting (given.setOption verb name text)).bind (read verb none · rest)
      else .error .misuse
  | none, given, text :: rest =>
      match shape text with
      | .separator => readOperands verb given rest
      | .word text => (fitting (given.setOperand verb text)).bind (read verb none · rest)
      | .short letters => (given.readLetters letters).bind (read verb none · rest)
      | .long name (some value) =>
          (fitting (given.setOption verb name value)).bind (read verb none · rest)
      | .long "help" none => .error .help
      | .long name none =>
          if isFlag name then (fitting (given.setFlag verb name)).bind (read verb none · rest)
          else read verb (some name) given rest

/-- The source given: a catalog unless there is a corpus, never both. -/
def source (given : Given) : Option Source :=
  match given.corpus, given.catalog with
  | some _, some _ => none
  | some path, none => some (.corpus path)
  | none, catalog => some (.catalog (catalog.getD .any))

def seeding (given : Given) : Option Seeding :=
  match given.seed, given.raw with
  | some _, true => none
  | some seed, false => some (.given seed)
  | none, true => some .now
  | none, false => some .slot

def command (given : Given) : Verb → Option Command
  | .generate =>
      given.source.bind fun source =>
      given.seeding.map fun seeding => .generate source seeding (given.count.getD 1)
  | .inspect => given.source.map .inspect
  | .encode => given.operand.map .encode
  | .check => given.operand.map .check

end Given

/-- Reads a subcommand and its arguments. An option given inside it goes before the same option
given ahead of it. -/
def readCommand (config : Option String) (name : String) (rest : List String) : Request :=
  match Verb.ofName? name with
  | none => .misuse
  | some verb =>
      match Given.read verb none .nothing rest with
      | .error request => request
      | .ok given =>
          match given.command verb with
          | none => .misuse
          | some command => .perform (given.config.or config) command

/-- Reads the names behind `help`: none, or what there is help on. -/
def readTopics : List String → Request
  | [] => .help
  | [name] => if name == "help" || (Verb.ofName? name).isSome then .help else .misuse
  | _ => .misuse

/-- Reads letters after a dash ahead of the subcommand: `none` if the line goes on. -/
def readLetters : List Char → Option Request
  | [] => none
  | 'd' :: letters => readLetters letters
  | 'V' :: _ => some .version
  | 'h' :: _ => some .help
  | _ => some .misuse

/-- Reads the arguments from the options of the program on; `due` when the option for a file of
options waits for its value. -/
def readProgram : (due : Bool) → (config : Option String) → List String → Request
  | _, _, [] => .misuse
  | true, config, text :: rest =>
      if isValue text && config.isNone && !text.isEmpty then readProgram false (some text) rest
      else .misuse
  | false, config, text :: rest =>
      match shape text with
      | .separator => .misuse
      | .word "help" => readTopics rest
      | .word name => readCommand config name rest
      | .short letters =>
          match readLetters letters with
          | some request => request
          | none => readProgram false config rest
      | .long "debug" none => readProgram false config rest
      | .long "version" none => .version
      | .long "help" none => .help
      | .long "config" none => readProgram true config rest
      | .long "config" (some value) =>
          if config.isNone && !value.isEmpty then readProgram false (some value) rest else .misuse
      | .long _ _ => .misuse

def Request.ofArguments (arguments : List String) : Request := readProgram false none arguments

end ChoiceGrammar.CommandLine
