/-!
# Sources of random words

A source gives one 64-bit word for every position. It also says how many pairs of words a single
draw may look at: a draw that has rejected that many gives up, which stands for never ending.
-/

namespace ChoiceGrammar

structure WordSource where
  word : Nat → UInt64
  attempts : Nat

namespace WordSource

/-- The 128-bit value at a position: the low half comes first. -/
def pair (source : WordSource) (position : Nat) : BitVec 128 :=
  (source.word (position + 1)).toBitVec ++ (source.word position).toBitVec

/-- The given words, then zeros for ever. Every pair of zeros is accepted, so one attempt more than
there are words is enough. -/
def scripted (words : List UInt64) : WordSource where
  word position := words.getD position 0
  attempts := words.length + 1

end WordSource

end ChoiceGrammar
