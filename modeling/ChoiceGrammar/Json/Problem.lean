import ChoiceGrammar.Decimal.Shortest
import ChoiceGrammar.Text.Quoted

/-!
# What can be wrong with JSON text

A failure is a problem and the number of bytes that were still unread when it was met, from which
its line and column follow.
-/

namespace ChoiceGrammar.Json

/-- A value of a type that was not expected. -/
inductive Found where
  | null
  | bool (value : Bool)
  | integer (value : Int)
  | float (negative : Bool) (value : Binary64)
  | string (text : String)
  | sequence
  | map
  deriving DecidableEq

def Found.describe : Found → String
  | null => "null"
  | bool value => "boolean `" ++ (if value then "true" else "false") ++ "`"
  | integer value => "integer `" ++ toString value ++ "`"
  | float negative value =>
      "floating point `" ++ (if negative then "-" else "") ++ String.ofList value.text ++ "`"
  | string text => "string " ++ Text.quoted text
  | sequence => "sequence"
  | map => "map"

inductive Problem where
  | eofInList
  | eofInObject
  | eofInString
  | eofInValue
  | expectedColon
  | expectedCommaOrBracket
  | expectedCommaOrBrace
  | expectedWord
  | expectedValue
  | invalidEscape
  | invalidNumber
  | numberOutOfRange
  | controlCharacter
  | keyNotString
  | loneSurrogate
  | unfinishedPair
  | trailingComma
  | trailingCharacters
  | wrongType (found : Found) (expected : String)
  | wrongValue (found : Found) (expected : String)
  | duplicateField (name : String)
  deriving DecidableEq

def Problem.message : Problem → String
  | eofInList => "EOF while parsing a list"
  | eofInObject => "EOF while parsing an object"
  | eofInString => "EOF while parsing a string"
  | eofInValue => "EOF while parsing a value"
  | expectedColon => "expected `:`"
  | expectedCommaOrBracket => "expected `,` or `]`"
  | expectedCommaOrBrace => "expected `,` or `\x7d`"
  | expectedWord => "expected ident"
  | expectedValue => "expected value"
  | invalidEscape => "invalid escape"
  | invalidNumber => "invalid number"
  | numberOutOfRange => "number out of range"
  | controlCharacter => "control character (\\u0000-\\u001F) found while parsing a string"
  | keyNotString => "key must be a string"
  | loneSurrogate => "lone leading surrogate in hex escape"
  | unfinishedPair => "unexpected end of hex escape"
  | trailingComma => "trailing comma"
  | trailingCharacters => "trailing characters"
  | wrongType found expected => "invalid type: " ++ found.describe ++ ", expected " ++ expected
  | wrongValue found expected => "invalid value: " ++ found.describe ++ ", expected " ++ expected
  | duplicateField name => "duplicate field `" ++ name ++ "`"

structure Failure where
  problem : Problem
  unread : Nat
  deriving DecidableEq

def byteLength : List Char → Nat
  | [] => 0
  | c :: cs => c.utf8Size + byteLength cs

/-- A failure met before what remains. -/
def Failure.before (problem : Problem) (rest : List Char) : Failure := ⟨problem, byteLength rest⟩

/-- A failure that lies in the next byte; at the end of the text, there. -/
def Failure.here (problem : Problem) (rest : List Char) : Failure := ⟨problem, byteLength rest - 1⟩

/-- A place in a text: the line from one, and the number of bytes of that line before the place. -/
structure Place where
  line : Nat
  column : Nat
  deriving DecidableEq, Repr

def Place.start : Place := ⟨1, 0⟩

def Place.advance (p : Place) (byte : UInt8) : Place :=
  if byte = 10 then ⟨p.line + 1, 0⟩ else ⟨p.line, p.column + 1⟩

/-- The place reached after the given bytes. -/
def Place.after (bytes : List UInt8) : Place := bytes.foldl Place.advance Place.start

structure Fault where
  problem : Problem
  place : Place
  deriving DecidableEq

/-- The fault that a failure is in the given text. -/
def Failure.inText (f : Failure) (text : String) : Fault :=
  let bytes := text.toUTF8.toList
  ⟨f.problem, .after (bytes.take (bytes.length - f.unread))⟩

def Fault.message (f : Fault) : String :=
  f.problem.message ++ " at line " ++ toString f.place.line ++ " column " ++ toString f.place.column

end ChoiceGrammar.Json
