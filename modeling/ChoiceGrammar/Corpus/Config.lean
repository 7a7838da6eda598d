import ChoiceGrammar.Expr.Parse
import ChoiceGrammar.Json.Value

/-!
# Corpus options

How the lines of a corpus are read: which lines are comments, whether blank lines count, and how
deeply the alternations of a line may nest.
-/

namespace ChoiceGrammar

structure CorpusConfig where
  /-- Lines that start with this character are comments. -/
  commentMark : Char
  /-- Whether blank lines are dropped instead of standing for an empty branch. -/
  skipBlankLines : Bool
  /-- How deeply the alternations of a line may nest. -/
  maxDepth : UInt64
  deriving DecidableEq, Repr

namespace CorpusConfig

def default : CorpusConfig := ⟨'#', false, Expr.defaultMaxDepth⟩

instance : Inhabited CorpusConfig := ⟨default⟩

/-- The options by name, in the order in which an array gives them. -/
inductive Field where
  | commentMark
  | skipBlankLines
  | maxDepth
  deriving DecidableEq, Repr

namespace Field

def name : Field → String
  | commentMark => "comment_prefix"
  | skipBlankLines => "skip_blank_lines"
  | maxDepth => "max_depth"

def all : List Field := [commentMark, skipBlankLines, maxDepth]

def ofName? (name : String) : Option Field := all.find? (·.name == name)

end Field

def toJson (config : CorpusConfig) : Json.Value :=
  .object [(Field.commentMark.name, .string (.singleton config.commentMark)),
    (Field.skipBlankLines.name, .bool config.skipBlankLines),
    (Field.maxDepth.name, .number config.maxDepth.toNat)]

end CorpusConfig

end ChoiceGrammar
