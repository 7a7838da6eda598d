import ChoiceGrammar.Json.Problem
import ChoiceGrammar.Markup.Read

/-!
# Errors

Why an expression, a corpus or its options could not be had. `message` is the text for a reader,
`outline` shows the structure of an error. An error in a corpus is wrapped with the number of its
line, and the error inside is its source.
-/

namespace ChoiceGrammar

/-- Why a file could not be read as text. -/
inductive ReadFailure where
  | notFound
  | permissionDenied
  | notADirectory
  | isADirectory
  | nameTooLong
  /-- Any other failure of the system, with its number. -/
  | other (code : Nat) (description : String)
  /-- The bytes of the file are not UTF-8. -/
  | notText
  deriving DecidableEq, Repr

namespace ReadFailure

/-- The number and the kind that the system gives to a failure. -/
def code? : ReadFailure → Option (Nat × String)
  | notFound => some (2, "NotFound")
  | permissionDenied => some (13, "PermissionDenied")
  | notADirectory => some (20, "NotADirectory")
  | isADirectory => some (21, "IsADirectory")
  | nameTooLong => some (36, "InvalidFilename")
  | other code _ => some (code, "Uncategorized")
  | notText => none

def description : ReadFailure → String
  | notFound => "No such file or directory"
  | permissionDenied => "Permission denied"
  | notADirectory => "Not a directory"
  | isADirectory => "Is a directory"
  | nameTooLong => "File name too long"
  | other _ description => description
  | notText => "stream did not contain valid UTF-8"

def message (failure : ReadFailure) : String :=
  match failure.code? with
  | some (code, _) => failure.description ++ " (os error " ++ toString code ++ ")"
  | none => failure.description

def outline (failure : ReadFailure) : String :=
  match failure.code? with
  | some (code, kind) =>
      "Os \x7b code: " ++ toString code ++ ", kind: " ++ kind ++ ", message: "
        ++ Text.quoted failure.description ++ " \x7d"
  | none =>
      "Error \x7b kind: InvalidData, message: " ++ Text.quoted failure.description ++ " \x7d"

end ReadFailure

namespace Markup.Fault

def message : Fault → String
  | trailingInput position found =>
      "Trailing input at offset " ++ toString position ++ ": unexpected '" ++ .singleton found
        ++ "'"
  | unterminated position => "Unterminated alternation opened at offset " ++ toString position
  | tooDeep position limit =>
      "Alternation at offset " ++ toString position ++ " nested deeper than " ++ toString limit
        ++ " levels"

def outline : Fault → String
  | trailingInput position found =>
      "TrailingInput \x7b position: " ++ toString position ++ ", found: " ++ Text.quotedChar found
        ++ " \x7d"
  | unterminated position =>
      "UnterminatedAlternation \x7b position: " ++ toString position ++ " \x7d"
  | tooDeep position limit =>
      "TooDeep \x7b position: " ++ toString position ++ ", max_depth: " ++ toString limit ++ " \x7d"

end Markup.Fault

def Json.Fault.outline (fault : Json.Fault) : String :=
  "Error(" ++ Text.quoted fault.problem.message ++ ", line: " ++ toString fault.place.line
    ++ ", column: " ++ toString fault.place.column ++ ")"

inductive BuildError where
  | io (failure : ReadFailure)
  | config (fault : Json.Fault)
  | markup (fault : Markup.Fault)
  | emptyAlternation
  | unknownCatalog (name : String)
  | atLine (number : Nat) (source : BuildError)
  deriving DecidableEq

namespace BuildError

def message : BuildError → String
  | io failure => "IO error: " ++ failure.message
  | config fault => "Configuration error: " ++ fault.message
  | markup fault => fault.message
  | emptyAlternation => "Alternation must have at least one branch"
  | unknownCatalog name => "Unknown catalog: " ++ name
  | atLine number source => "Error at line " ++ toString number ++ ": " ++ source.message

def outline : BuildError → String
  | io failure => "Io(" ++ failure.outline ++ ")"
  | config fault => "Config(" ++ fault.outline ++ ")"
  | markup fault => fault.outline
  | emptyAlternation => "EmptyAlternation"
  | unknownCatalog name => "UnknownCatalog(" ++ Text.quoted name ++ ")"
  | atLine number source =>
      "Line \x7b line: " ++ toString number ++ ", source: " ++ source.outline ++ " \x7d"

/-- The line number of an error in a corpus. -/
def line? : BuildError → Option Nat
  | atLine number _ => some number
  | _ => none

/-- The errors inside an error, from the outside in. -/
def sources : BuildError → List BuildError
  | atLine _ source => source :: source.sources
  | _ => []

end BuildError

end ChoiceGrammar
