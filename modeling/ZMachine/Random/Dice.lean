import ZMachine.Random.ChaCha

namespace ZMachine

structure WordStream where
  key : ChaCha.Key
  position : Nat := 0
  deriving DecidableEq

namespace WordStream

def ofSeed (seed : UInt64) : WordStream := { key := ChaCha.key seed }

def next (s : WordStream) : UInt32 × WordStream :=
  (ChaCha.word s.key s.position, { s with position := s.position + 1 })

def zone (n : Nat) : Nat := UInt32.size - 1 - (UInt32.size - n) % n

/-- A value below `n`: the high half of the product of `n` and a word, where words with a low half
beyond the zone are passed over. For `n` below 65536 a word is passed over less than once in
65536 times, so the bound on the tries is not met. -/
def below (n : Nat) : Nat → WordStream → Nat × WordStream
  | 0, s => (0, s)
  | tries + 1, s =>
    let (w, s) := s.next
    let product := w.toNat * n
    if product % UInt32.size ≤ zone n then (product / UInt32.size, s) else below n tries s

end WordStream

inductive Randomness where
  | predictable (seed : UInt64)
  | uniform
  deriving DecidableEq

structure Dice where
  mode : Randomness
  stream : WordStream
  /-- Seeds the next unpredictable sequence. -/
  entropy : UInt64
  deriving DecidableEq

namespace Dice

def predictable (seed entropy : UInt64) : Dice := ⟨.predictable seed, .ofSeed seed, entropy⟩

def unpredictable (entropy : UInt64) : Dice :=
  let (high, stream) := (WordStream.ofSeed entropy).next
  let (low, stream) := stream.next
  ⟨.uniform, stream, high.toUInt64 <<< 32 ||| low.toUInt64⟩

def seed (seed : UInt64) (d : Dice) : Dice := predictable seed d.entropy

def reseed (d : Dice) : Dice := unpredictable d.entropy

def tries : Nat := 256

def below (n : Nat) (d : Dice) : Nat × Dice :=
  let (v, stream) := d.stream.below n tries
  (v, { d with stream })

def roll (range : UInt16) (d : Dice) : UInt16 × Dice :=
  if range = 0 then (0, d)
  else
    let (v, d) := d.below range.toNat
    (UInt16.ofNat (v + 1), d)

def unsigned (d : Dice) : UInt16 × Dice :=
  let (v, d) := d.below 32768
  (UInt16.ofNat v, d)

end Dice

end ZMachine
