/-!
# A seeded stream of random words

The stream is the keystream of the ChaCha cipher with 12 rounds, a 64-bit block counter and stream
number zero, under a key that a small generator expands from a 64-bit seed.

Source: `seed_from_u64` and the standard generator of `rand` 0.8, as `quant/synth` 63 uses them.
-/

namespace IndexedCodebook.Random

/-- A 32-bit word rotated to the left. -/
def rotateLeft (x : UInt32) (n : UInt32) : UInt32 := x <<< n ||| x >>> (32 - n)

/-- A 32-bit word rotated to the right by less than 32 places. -/
def rotateRight (x : UInt32) (n : UInt32) : UInt32 := x >>> n ||| x <<< ((32 - n) % 32)

/-- One step of the generator that expands seeds. -/
def seedStep (s : UInt64) : UInt64 := s * 6364136223846793005 + 11634580027462260723

/-- The word of a state of the generator that expands seeds. -/
def seedWord (s : UInt64) : UInt32 :=
  rotateRight (((s >>> 18) ^^^ s) >>> 27).toUInt32 (s >>> 59).toUInt32

/-- The first words that a seed expands to; the seed itself gives none. -/
def seedWords (seed : UInt64) : Nat → List UInt32
  | 0 => []
  | n + 1 => seedWord (seedStep seed) :: seedWords (seedStep seed) n

/-- The state of the cipher. -/
abbrev Block := Vector UInt32 16

/-- The quarter round on four words of a block. -/
def quarterRound (s : Block) (a b c d : Fin 16) : Block :=
  let s := s.set a (s[a] + s[b])
  let s := s.set d (rotateLeft (s[d] ^^^ s[a]) 16)
  let s := s.set c (s[c] + s[d])
  let s := s.set b (rotateLeft (s[b] ^^^ s[c]) 12)
  let s := s.set a (s[a] + s[b])
  let s := s.set d (rotateLeft (s[d] ^^^ s[a]) 8)
  let s := s.set c (s[c] + s[d])
  s.set b (rotateLeft (s[b] ^^^ s[c]) 7)

/-- Two rounds: quarter rounds on the columns, then on the diagonals. -/
def doubleRound (s : Block) : Block :=
  let s := quarterRound s 0 4 8 12
  let s := quarterRound s 1 5 9 13
  let s := quarterRound s 2 6 10 14
  let s := quarterRound s 3 7 11 15
  let s := quarterRound s 0 5 10 15
  let s := quarterRound s 1 6 11 12
  let s := quarterRound s 2 7 8 13
  quarterRound s 3 4 9 14

/-- The block before the rounds: four constants, the key, the counter and the stream number. -/
def initialBlock (key : List UInt32) (counter : UInt64) : Block :=
  let constants : List UInt32 := [0x61707865, 0x3320646e, 0x79622d32, 0x6b206574]
  let place : List UInt32 := [counter.toUInt32, (counter >>> 32).toUInt32, 0, 0]
  let words := constants ++ key ++ place
  .ofFn fun i ↦ words.getD i.val 0

/-- A block of the keystream: six double rounds, added to the block before the rounds. -/
def keystreamBlock (key : List UInt32) (counter : UInt64) : Block :=
  let start := initialBlock key counter
  (Nat.repeat doubleRound 6 start).zipWith (· + ·) start

/-- The first blocks of the stream of a seed, word by word. -/
def stream (seed : UInt64) (blocks : Nat) : List UInt32 :=
  let key := seedWords seed 8
  (List.range blocks).flatMap fun i ↦ (keystreamBlock key (.ofNat i)).toList

end IndexedCodebook.Random
