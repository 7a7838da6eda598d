import ChoiceGrammar.Corpus.ConfigText
import ChoiceGrammar.Corpus.Lines
import ChoiceGrammar.Expr.Build

/-!
# Corpora

A corpus is a text with one expression per line. It stands for the alternation between its lines,
in their order. Comments are left out, and blank lines if the options say so; every other line is
parsed. The first line that cannot be parsed is reported with its number, counted from one over all
lines.
-/

namespace ChoiceGrammar.Corpus

/-- Whether a trimmed line is an expression: no comment, and no blank line that is to be skipped. -/
def isKept (config : CorpusConfig) (line : List Char) : Bool :=
  line.head? != some config.commentMark && !(line.isEmpty && config.skipBlankLines)

/-- Parses the lines that are kept, the first of all having the given number. -/
def branches (config : CorpusConfig) :
    (number : Nat) → List (List Char) → Except BuildError (List Expr)
  | _, [] => .ok []
  | number, line :: lines =>
      if isKept config (trim line) then
        match Expr.parseChars config.maxDepth.toNat (trim line) with
        | .error fault => .error (.atLine number (.markup fault))
        | .ok branch => (branches config (number + 1) lines).map (branch :: ·)
      else branches config (number + 1) lines

def parse (config : CorpusConfig) (text : String) : Except BuildError Expr :=
  (branches config 1 (lines text.toList)).bind Expr.alternation

/-- The text of a file with the given contents. -/
def decode (contents : Except ReadFailure ByteArray) : Except BuildError String :=
  match contents with
  | .error failure => .error (.io failure)
  | .ok bytes =>
      match String.fromUTF8? bytes with
      | some text => .ok text
      | none => .error (.io .notText)

/-- The expression of a corpus file. -/
def ofFile (config : CorpusConfig) (contents : Except ReadFailure ByteArray) :
    Except BuildError Expr :=
  (decode contents).bind (parse config)

def configOfText (text : String) : Except BuildError CorpusConfig :=
  (CorpusConfig.parse text).mapError .config

def configOfFile (contents : Except ReadFailure ByteArray) : Except BuildError CorpusConfig :=
  (decode contents).bind configOfText

end ChoiceGrammar.Corpus
