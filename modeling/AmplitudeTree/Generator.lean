import AmplitudeTree.Scalar

/-!
# Random draws

Draws come from the ChaCha stream cipher with twelve rounds.  The key is expanded from a seed of 64
bits by a linear congruential generator whose output is permuted.  A generator is its key and its
position in the stream, so equal generators make equal draws, and a draw returns the generator that
the next draw is made from.
-/

namespace AmplitudeTree

/-- A position in the key stream of a key. -/
structure Generator where
  key : Vector UInt32 8
  /-- The number of 64-bit words drawn so far. -/
  position : Nat

namespace Generator

def rotateLeft (x : UInt32) (n : UInt32) : UInt32 := (x <<< n) ||| (x >>> (32 - n))

def expandStep (state : UInt64) : UInt64 := state * 6364136223846793005 + 11634580027462260723

def expandOutput (state : UInt64) : UInt32 :=
  let mixed := (((state >>> 18) ^^^ state) >>> 27).toUInt32
  let turn := (state >>> 59).toUInt32
  (mixed >>> turn) ||| (mixed <<< ((32 - turn) % 32))

def expandState (seed : UInt64) : Nat → UInt64
  | 0 => seed
  | steps + 1 => expandStep (expandState seed steps)

def ofSeed (seed : UInt64) : Generator :=
  ⟨Vector.ofFn fun i => expandOutput (expandState seed (i + 1)), 0⟩

abbrev Block := Vector UInt32 16

def quarterRound (b : Block) (i j k l : Fin 16) : Block :=
  let b := b.set i (b[i] + b[j])
  let b := b.set l (rotateLeft (b[l] ^^^ b[i]) 16)
  let b := b.set k (b[k] + b[l])
  let b := b.set j (rotateLeft (b[j] ^^^ b[k]) 12)
  let b := b.set i (b[i] + b[j])
  let b := b.set l (rotateLeft (b[l] ^^^ b[i]) 8)
  let b := b.set k (b[k] + b[l])
  b.set j (rotateLeft (b[j] ^^^ b[k]) 7)

/-- A round on the columns followed by a round on the diagonals. -/
def doubleRound (b : Block) : Block :=
  let b := quarterRound b 0 4 8 12
  let b := quarterRound b 1 5 9 13
  let b := quarterRound b 2 6 10 14
  let b := quarterRound b 3 7 11 15
  let b := quarterRound b 0 5 10 15
  let b := quarterRound b 1 6 11 12
  let b := quarterRound b 2 7 8 13
  quarterRound b 3 4 9 14

def rounds : Nat → Block → Block
  | 0, b => b
  | n + 1, b => rounds n (doubleRound b)

/-- The block before the rounds: four constants, the key, the block's number and two zeros. -/
def initialBlock (key : Vector UInt32 8) (number : UInt64) : Block :=
  #v[0x61707865, 0x3320646e, 0x79622d32, 0x6b206574,
     key[0], key[1], key[2], key[3], key[4], key[5], key[6], key[7],
     number.toUInt32, (number >>> 32).toUInt32, 0, 0]

def block (key : Vector UInt32 8) (number : UInt64) : Block :=
  let initial := initialBlock key number
  Vector.zipWith (· + ·) (rounds 6 initial) initial

/-- Draws a 64-bit word: the next two words of the stream, the lower one first. -/
def word (g : Generator) : UInt64 × Generator :=
  let words := block g.key (UInt64.ofNat (g.position / 8))
  let first : Fin 16 := ⟨2 * (g.position % 8), by omega⟩
  let second : Fin 16 := ⟨2 * (g.position % 8) + 1, by omega⟩
  (words[first].toUInt64 ||| (words[second].toUInt64 <<< 32), ⟨g.key, g.position + 1⟩)

/-- Draws a number from the half-open unit interval, a multiple of `2⁻⁵³`. -/
def unit {R : Type} [Scalar R] (g : Generator) : R × Generator :=
  let (drawn, g) := g.word
  (Scalar.ofNat (drawn >>> 11).toNat / Scalar.ofNat (2 ^ 53), g)

end Generator

end AmplitudeTree
