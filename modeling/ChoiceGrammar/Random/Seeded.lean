import ChoiceGrammar.Random.Source

/-!
# Seeded word streams

The stream of a seed is the ChaCha keystream with twelve rounds, under a key that is expanded from
the seed by a permuted congruential generator. A 64-bit block counter starts at zero; each block of
sixteen 32-bit words gives eight 64-bit words, low half first.
-/

namespace ChoiceGrammar.ChaCha

abbrev Block := Vector UInt32 16

def rotateLeft (x n : UInt32) : UInt32 := (x <<< n) ||| (x >>> (32 - n))

def quarterRound (s : Block) (a b c d : Fin 16) : Block :=
  let s := s.set a (s[a] + s[b])
  let s := s.set d (rotateLeft (s[d] ^^^ s[a]) 16)
  let s := s.set c (s[c] + s[d])
  let s := s.set b (rotateLeft (s[b] ^^^ s[c]) 12)
  let s := s.set a (s[a] + s[b])
  let s := s.set d (rotateLeft (s[d] ^^^ s[a]) 8)
  let s := s.set c (s[c] + s[d])
  s.set b (rotateLeft (s[b] ^^^ s[c]) 7)

/-- A round on the columns, then one on the diagonals. -/
def doubleRound (s : Block) : Block :=
  let s := quarterRound s 0 4 8 12
  let s := quarterRound s 1 5 9 13
  let s := quarterRound s 2 6 10 14
  let s := quarterRound s 3 7 11 15
  let s := quarterRound s 0 5 10 15
  let s := quarterRound s 1 6 11 12
  let s := quarterRound s 2 7 8 13
  quarterRound s 3 4 9 14

/-- Twelve rounds, and the initial block added to their result. -/
def scramble (s : Block) : Block := (Nat.repeat doubleRound 6 s).zipWith (· + ·) s

def keyStep (state : UInt64) : UInt64 := state * 6364136223846793005 + 11634580027462260723

/-- The key word of a state: its upper bits folded together and rotated by the top five. -/
def keyWord (state : UInt64) : UInt32 :=
  let folded := (((state >>> 18) ^^^ state) >>> 27).toUInt32
  let turn := (state >>> 59).toUInt32
  rotateLeft folded (32 - turn)

def key (seed : UInt64) : Vector UInt32 8 :=
  .ofFn fun i => keyWord (Nat.repeat keyStep (i + 1) seed)

def initialBlock (seed counter : UInt64) : Block :=
  (#v[0x61707865, 0x3320646e, 0x79622d32, 0x6b206574] : Vector UInt32 4) ++ key seed ++
    (#v[counter.toUInt32, (counter >>> 32).toUInt32, 0, 0] : Vector UInt32 4)

/-- The 64-bit word at a position of the stream. -/
def word (seed : UInt64) (position : Nat) : UInt64 :=
  let block := scramble (initialBlock seed (.ofNat (position / 8)))
  let i := position % 8
  (block.get ⟨2 * i, by omega⟩).toUInt64 ||| ((block.get ⟨2 * i + 1, by omega⟩).toUInt64 <<< 32)

end ChoiceGrammar.ChaCha

namespace ChoiceGrammar

/-- The stream of a seed. It repeats after `2 ^ 67` words, so a draw that rejects `2 ^ 66` pairs
rejects for ever. -/
def WordSource.seeded (seed : UInt64) : WordSource where
  word := ChaCha.word seed
  attempts := 1 <<< 66

end ChoiceGrammar
