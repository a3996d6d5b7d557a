import Annealing.Random.Tape

/-!
# Seeded tapes

A 64-bit seed is stretched to a key of eight words by a linear congruential
generator with permuted output. The tape is the key stream of the ChaCha
cipher with twelve rounds under this key, with a 64-bit block counter that
starts at zero and a zero nonce: page `k` is block `k`.
-/
namespace Annealing.ChaCha

/-- The eight words of a cipher key. -/
abbrev Key := Vector UInt32 8

def rotateLeft (x : UInt32) (n : UInt32) : UInt32 := (x <<< n) ||| (x >>> (32 - n))

/-- One step of the generator that stretches a seed. -/
def stretchStep (s : UInt64) : UInt64 := s * 6364136223846793005 + 11634580027462260723

/-- The output word of a generator state. -/
def stretchWord (s : UInt64) : UInt32 :=
  let x := (((s >>> 18) ^^^ s) >>> 27).toUInt32
  let r := (s >>> 59).toUInt32
  (x >>> r) ||| (x <<< ((32 - r) &&& 31))

/-- The state of the generator after some steps. -/
def stretched (seed : UInt64) : Nat → UInt64
  | 0 => seed
  | n + 1 => stretchStep (stretched seed n)

/-- The key stretched from a seed. -/
def keyOfSeed (seed : UInt64) : Key :=
  Vector.ofFn fun i => stretchWord (stretched seed (i + 1))

/-- Mixes four words of the state. -/
def quarterRound (s : Page) (a b c d : Fin 16) : Page :=
  let s := s.set a (s[a] + s[b])
  let s := s.set d (rotateLeft (s[d] ^^^ s[a]) 16)
  let s := s.set c (s[c] + s[d])
  let s := s.set b (rotateLeft (s[b] ^^^ s[c]) 12)
  let s := s.set a (s[a] + s[b])
  let s := s.set d (rotateLeft (s[d] ^^^ s[a]) 8)
  let s := s.set c (s[c] + s[d])
  s.set b (rotateLeft (s[b] ^^^ s[c]) 7)

/-- Mixes the four columns and then the four diagonals. -/
def doubleRound (s : Page) : Page :=
  let s := quarterRound s 0 4 8 12
  let s := quarterRound s 1 5 9 13
  let s := quarterRound s 2 6 10 14
  let s := quarterRound s 3 7 11 15
  let s := quarterRound s 0 5 10 15
  let s := quarterRound s 1 6 11 12
  let s := quarterRound s 2 7 8 13
  quarterRound s 3 4 9 14

/-- The state of a block before it is mixed: four constants, the key, the
block counter and the nonce. -/
def initialState (key : Key) (counter : UInt64) : Page :=
  #v[0x61707865, 0x3320646e, 0x79622d32, 0x6b206574,
    key[0], key[1], key[2], key[3], key[4], key[5], key[6], key[7],
    counter.toUInt32, (counter >>> 32).toUInt32, 0, 0]

/-- One block of the key stream. -/
def block (key : Key) (counter : UInt64) : Page :=
  let start := initialState key counter
  let mixed := Nat.repeat doubleRound 6 start
  mixed.zipWith (· + ·) start

end ChaCha

/-- The tape of a seed. -/
def Tape.ofSeed (seed : UInt64) : Tape :=
  let key := ChaCha.keyOfSeed seed
  .ofPages fun k => ChaCha.block key (.ofNat k)

end Annealing
