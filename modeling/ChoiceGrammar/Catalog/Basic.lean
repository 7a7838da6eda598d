import ChoiceGrammar.Catalog.MeetingCauses
import ChoiceGrammar.Catalog.OutOfOfficeCauses
import ChoiceGrammar.Corpus.Basic

/-!
# The bundled catalogs

A catalog makes excuses: an opening statement followed by a cause from a bundled corpus. The catalog
`any` chooses between the others by weight.
-/

namespace ChoiceGrammar

inductive Catalog where
  | meeting
  | outOfOffice
  | any
  deriving DecidableEq, Repr

namespace Catalog

def all : List Catalog := [meeting, outOfOffice, any]

def name : Catalog → String
  | meeting => "meeting"
  | outOfOffice => "ooo"
  | any => "any"

/-- Names are compared without regard to the case of ASCII letters. -/
def sameName (a b : String) : Bool := a.toList.map Char.toLower == b.toList.map Char.toLower

def ofName (name : String) : Except BuildError Catalog :=
  match all.find? (sameName ·.name name) with
  | some catalog => .ok catalog
  | none => .error (.unknownCatalog name)

def meetingStatements : String :=
  "<I cannot attend the daily|going to miss the meeting|gonna miss the meeting" ++
    "|No daily meeting for me>, "

def outOfOfficeStatements : String :=
  "<I'm going to be OOO|I need to be OOO today|I can't show up today>, "

/-- A statement followed by a cause. -/
def excuse (statements causes : String) : Except BuildError Expr :=
  (Expr.ofText Expr.defaultMaxDepth.toNat statements).bind fun statement =>
  (Corpus.parse .default causes).map fun cause =>
    .seq [statement, cause]

/-- The expression of a catalog. -/
def build : Catalog → Except BuildError Expr
  | meeting => excuse meetingStatements meetingCauses
  | outOfOffice => excuse outOfOfficeStatements outOfOfficeCauses
  | any =>
      (excuse meetingStatements meetingCauses).bind fun meeting =>
      (excuse outOfOfficeStatements outOfOfficeCauses).bind fun outOfOffice =>
        Expr.alternation [meeting, outOfOffice]

end Catalog

end ChoiceGrammar
