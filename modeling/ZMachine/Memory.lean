import ZMachine.Fault

/-!
The story image: bytes at addresses from 0. Words and double words are big-endian, every access
is checked against the size of the image, and a failed write changes nothing.
-/

namespace ZMachine

def maxStorySize (version : UInt8) : Nat :=
  if 1 ≤ version ∧ version ≤ 3 then 128 * 1024
  else if 4 ≤ version ∧ version ≤ 5 then 256 * 1024
  else 512 * 1024

theorem maxStorySize_le (version : UInt8) : maxStorySize version ≤ 512 * 1024 := by
  unfold maxStorySize
  split
  · decide
  · split <;> decide

-- Numerals name the bytes and the words of the header.
instance headerBytesNeZero : @NeZero Nat Zero.ofOfNat0 64 := ⟨by decide⟩

instance headerWordsNeZero : @NeZero Nat Zero.ofOfNat0 63 := ⟨by decide⟩

structure Memory where
  bytes : Array UInt8
  header_le : 64 ≤ bytes.size
  size_le : bytes.size ≤ 512 * 1024

def ofBytes16 (high low : UInt8) : UInt16 :=
  UInt16.ofNat (high.toNat * 256 + low.toNat)

def highByte (w : UInt16) : UInt8 := UInt8.ofNat (w.toNat / 256)

def lowByte (w : UInt16) : UInt8 := UInt8.ofNat w.toNat

namespace Memory

def load (bytes : Array UInt8) : Except Fault Memory :=
  if small : bytes.size < 64 then .error (.invalidStory (.tooSmall bytes.size))
  else
    let version := bytes.getD 0 0
    if version < 1 ∨ 8 < version then .error (.invalidStory (.version version))
    else if large : maxStorySize version < bytes.size then
      .error (.invalidStory (.tooLarge bytes.size version (maxStorySize version)))
    else .ok ⟨bytes, by omega, by have := maxStorySize_le version; omega⟩

def size (m : Memory) : Nat := m.bytes.size

def outside (m : Memory) (a width : Nat) : Fault :=
  if a < UInt32.size then .memory a width m.size else .defect (.address a)

def byte (m : Memory) (a : Nat) : Except Fault UInt8 :=
  if h : a < m.bytes.size then .ok m.bytes[a] else .error (m.outside a 1)

def word (m : Memory) (a : Nat) : Except Fault UInt16 :=
  if h : a + 1 < m.bytes.size then .ok (ofBytes16 m.bytes[a] m.bytes[a + 1])
  else .error (m.outside a 2)

def dword (m : Memory) (a : Nat) : Except Fault UInt32 :=
  if h : a + 3 < m.bytes.size then
    .ok (UInt32.ofNat ((ofBytes16 m.bytes[a] m.bytes[a + 1]).toNat * 65536 +
      (ofBytes16 m.bytes[a + 2] m.bytes[a + 3]).toNat))
  else .error (m.outside a 4)

/-- Bit `position % 8` of a byte, 0 the least significant. -/
def bit (m : Memory) (a : Nat) (position : UInt8) : Except Fault Bool := do
  return (← m.byte a).toNat.testBit (position.toNat % 8)

def block (m : Memory) (a n : Nat) : Except Fault (Vector UInt8 n) :=
  if h : a + n ≤ m.bytes.size then .ok (Vector.ofFn fun i => m.bytes[a + i.val])
  else .error (m.outside a n)

def slice (m : Memory) (a n : Nat) : Except Fault (List UInt8) :=
  Vector.toList <$> m.block a n

def words (m : Memory) : Nat → Nat → Except Fault (List UInt16)
  | _, 0 => return []
  | a, n + 1 => do return (← m.word a) :: (← m.words (a + 2) n)

def set (m : Memory) (a : Nat) (v : UInt8) (h : a < m.bytes.size) : Memory :=
  ⟨m.bytes.set a v, by simpa using m.header_le, by simpa using m.size_le⟩

@[simp] theorem size_set (m : Memory) (a : Nat) (v : UInt8) (h : a < m.bytes.size) :
    (m.set a v h).bytes.size = m.bytes.size := by
  simp [set]

def setByte (a : Nat) (v : UInt8) : Action Memory Unit := fun m =>
  if h : a < m.bytes.size then .ok () (m.set a v h) else .error (m.outside a 1) m

def setWord (a : Nat) (w : UInt16) : Action Memory Unit := fun m =>
  if h : a + 1 < m.bytes.size then
    .ok () ((m.set a (highByte w) (by omega)).set (a + 1) (lowByte w) (by simpa using h))
  else .error (m.outside a 2) m

def setDword (a : Nat) (d : UInt32) : Action Memory Unit := fun m =>
  if h : a + 3 < m.bytes.size then
    let high := UInt16.ofNat (d.toNat / 65536)
    let low := UInt16.ofNat d.toNat
    .ok () ((((m.set a (highByte high) (by omega)).set (a + 1) (lowByte high)
      (by simp; omega)).set (a + 2) (highByte low) (by simp; omega)).set (a + 3) (lowByte low)
      (by simpa using h))
  else .error (m.outside a 4) m

/-- Writes `bytes` one after the other from `a`, up to the first that falls outside. -/
def setBytes (a : Nat) : List UInt8 → Action Memory Unit
  | [] => pure ()
  | b :: rest => do
    setByte a b
    setBytes (a + 1) rest

def copyFrom (start : Array UInt8) : Action Memory Unit := fun m =>
  if h : start.size ≤ m.bytes.size then
    .ok () ⟨start ++ m.bytes.extract start.size, by
      have := m.header_le; simp; omega, by have := m.size_le; simp; omega⟩
  else .error (m.outside 0 start.size) m

-- The header lies inside every image, so its fields need no check.
def headerByte (m : Memory) (k : Fin 64) : UInt8 :=
  have := m.header_le
  have := k.isLt
  m.bytes[k.val]

def headerWord (m : Memory) (k : Fin 63) : UInt16 :=
  have := m.header_le
  have := k.isLt
  ofBytes16 m.bytes[k.val] m.bytes[k.val + 1]

def setHeaderByte (k : Fin 64) (v : UInt8) (m : Memory) : Memory :=
  m.set k.val v (Nat.lt_of_lt_of_le k.isLt m.header_le)

def setHeaderWord (k : Fin 63) (w : UInt16) (m : Memory) : Memory :=
  have := m.header_le
  have := k.isLt
  (m.set k.val (highByte w) (by omega)).set (k.val + 1) (lowByte w)
    (by rw [size_set]; omega)

end Memory

end ZMachine
