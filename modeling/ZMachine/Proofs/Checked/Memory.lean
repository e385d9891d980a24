import ZMachine.Proofs.Checked.Basic
import ZMachine.Proofs.Memory.Access

namespace ZMachine

def Memory.Sized (n : Nat) (m : Memory) : Prop := m.bytes.size = n

namespace Memory

variable {m : Memory} {a : Nat}

theorem byte_bound {b : UInt8} (h : m.byte a = .ok b) : a < 524288 :=
  Nat.lt_of_lt_of_le (byte_inside h) m.size_le

theorem word_bound {w : UInt16} (h : m.word a = .ok w) : a + 1 < 524288 := by
  have hs := m.size_le
  unfold word at h
  split at h
  · omega
  · cases h

end Memory

namespace Checked

variable {α : Type}

def check (m : Memory) (a width : Nat) : Calc Nat := do
  let a ← fit 32 a
  let stop ← add 64 a width
  if m.size < stop then raise (.memory a width m.size) else return a

def byte (m : Memory) (a : Nat) : Calc UInt8 := do
  let i ← check m a 1
  element m.bytes[i]?

def word (m : Memory) (a : Nat) : Calc UInt16 := do
  let i ← check m a 2
  let high ← element m.bytes[i]?
  let low ← element m.bytes[← add 64 i 1]?
  return ofBytes16 high low

def dword (m : Memory) (a : Nat) : Calc UInt32 := do
  let i ← check m a 4
  let first ← element m.bytes[i]?
  let second ← element m.bytes[← add 64 i 1]?
  let third ← element m.bytes[← add 64 i 2]?
  let fourth ← element m.bytes[← add 64 i 3]?
  return UInt32.ofNat ((ofBytes16 first second).toNat * 65536 + (ofBytes16 third fourth).toNat)

def block (m : Memory) (a n : Nat) : Calc (Vector UInt8 n) := do
  let i ← check m a (n % 2 ^ 32)
  span i (← add 64 i n) m.size
  plain (m.block i n)

def slice (m : Memory) (a n : Nat) : Calc (List UInt8) := Vector.toList <$> block m a n

def target (width a : Nat) (m : Memory) : Calc Unit := do
  let i ← check m a width
  span i (← add 64 i width) m.size

def setByte (a : Nat) (v : UInt8) : Work Memory Unit := do
  read (target 1 a)
  plainly (Memory.setByte a v)

def setWord (a : Nat) (w : UInt16) : Work Memory Unit := do
  read (target 2 a)
  plainly (Memory.setWord a w)

def setDword (a : Nat) (d : UInt32) : Work Memory Unit := do
  read (target 4 a)
  plainly (Memory.setDword a d)

def setBytes (a : Nat) : Nat → List UInt8 → Work Memory Unit
  | _, [] => pure ()
  | i, b :: rest => do
    setByte (← add 32 a i) b
    setBytes a (i + 1) rest

def beginning (n : Nat) (m : Memory) : Calc Unit := do
  let i ← check m 0 (n % 2 ^ 32)
  span i n m.size

def copyFrom (start : Array UInt8) : Work Memory Unit := do
  read (beginning start.size)
  plainly (Memory.copyFrom start)

def packingRules : List PackingRule :=
  [⟨2, false⟩, ⟨2, false⟩, ⟨2, false⟩, ⟨2, false⟩, ⟨4, false⟩, ⟨4, false⟩, ⟨4, true⟩, ⟨4, true⟩,
    ⟨8, false⟩]

def unpack (m : Memory) (offset packed : UInt16) : Calc Nat := do
  let rule ← element packingRules[min m.version.toNat 8]?
  let a ← mul 32 packed.toNat rule.multiplier
  if rule.usesOffsets then add 32 a (← mul 32 8 offset.toNat) else return a

section Reading

variable {m : Memory} {a : Nat}

theorem check_inside {width : Nat} (ha : a < 2 ^ 32) (h : a + width ≤ m.bytes.size) :
    check m a width = .ok a := by
  have hs := m.size_le
  unfold check
  simp (disch := omega) only [fit_of_lt, add_of_lt, ok_bind]
  exact if_neg (Nat.not_lt.mpr h)

theorem outside_eq {width : Nat} (ha : a < 2 ^ 32) : m.outside a width = .memory a width m.size :=
  if_pos ha

theorem check_outside {width : Nat} (ha : a < 2 ^ 32) (hw : width < 2 ^ 32)
    (h : m.bytes.size < a + width) : check m a width = raise (m.outside a width) := by
  unfold check
  simp (disch := omega) only [fit_of_lt, add_of_lt, ok_bind]
  rw [if_pos (show m.size < a + width from h), outside_eq ha]

theorem outside_expected {width : Nat} (ha : a < 2 ^ 32) : (m.outside a width).Expected := by
  rw [outside_eq ha]
  trivial

theorem element_byte (h : a < m.bytes.size) : element m.bytes[a]? = .ok m.bytes[a] := by
  rw [Array.getElem?_eq_getElem h]
  rfl

theorem byte_agrees (ha : a < 2 ^ 32) : Agrees (byte m a) (m.byte a) := by
  unfold byte Memory.byte
  split
  · next h =>
    rw [check_inside ha h, ok_bind, element_byte h]
    exact .ok _
  · next h =>
    rw [check_outside ha (by decide) (by omega)]
    exact .error (outside_expected ha)

theorem word_agrees (ha : a < 2 ^ 32) : Agrees (word m a) (m.word a) := by
  have hs := m.size_le
  unfold word Memory.word
  split
  · next h =>
    simp (disch := omega) only [check_inside, add_of_lt, element_byte, ok_bind]
    exact .ok _
  · next h =>
    rw [check_outside ha (by decide) (by omega)]
    exact .error (outside_expected ha)

theorem dword_agrees (ha : a < 2 ^ 32) : Agrees (dword m a) (m.dword a) := by
  have hs := m.size_le
  unfold dword Memory.dword
  split
  · next h =>
    simp (disch := omega) only [check_inside, add_of_lt, element_byte, ok_bind]
    exact .ok _
  · next h =>
    rw [check_outside ha (by decide) (by omega)]
    exact .error (outside_expected ha)

theorem block_agrees {n : Nat} (ha : a < 2 ^ 32) (hn : n < 2 ^ 32) :
    Agrees (block m a n) (m.block a n) := by
  have hs := m.size_le
  unfold block
  rw [Nat.mod_eq_of_lt hn]
  by_cases h : a + n ≤ m.bytes.size
  · have hb : m.block a n = .ok (Vector.ofFn fun i => m.bytes[a + i.val]) := dif_pos h
    simp (disch := omega) only [check_inside, add_of_lt, ok_bind]
    rw [Memory.size, span_of_le (Nat.le_add_right a n) h, ok_bind, hb]
    exact .ok _
  · have hb : m.block a n = .error (m.outside a n) := dif_neg h
    rw [check_outside ha hn (by omega), hb]
    exact .error (outside_expected ha)

theorem slice_agrees {n : Nat} (ha : a < 2 ^ 32) (hn : n < 2 ^ 32) :
    Agrees (slice m a n) (m.slice a n) :=
  (block_agrees ha hn).map _

theorem element_packingRules (version : UInt8) :
    element packingRules[min version.toNat 8]? = .ok (packingRule version) := by
  have early : ∀ n < 8, packingRules[n]? = some (
      if n ≤ 3 then ⟨2, false⟩ else if n ≤ 5 then ⟨4, false⟩ else ⟨4, true⟩) := by decide
  unfold packingRule
  simp only [UInt8.le_iff_toNat_le, UInt8.reduceToNat]
  by_cases late : 8 ≤ version.toNat
  · rw [Nat.min_eq_right late, if_neg (by omega), if_neg (by omega), if_neg (by omega)]
    rfl
  · rw [Nat.min_eq_left (by omega), early _ (by omega),
      if_pos (show version.toNat ≤ 7 by omega)]
    rfl

theorem unpack_lt (m : Memory) (offset packed : UInt16) : m.unpack offset packed < 2 ^ 20 := by
  have ho := offset.toNat_lt
  have hp := packed.toNat_lt
  unfold Memory.unpack packingRule
  dsimp only
  split
  · simp only [Bool.false_eq_true, ↓reduceIte]
    omega
  · split
    · simp only [Bool.false_eq_true, ↓reduceIte]
      omega
    · split
      · simp only [↓reduceIte]
        omega
      · simp only [Bool.false_eq_true, ↓reduceIte]
        omega

theorem unpack_eq (m : Memory) (offset packed : UInt16) :
    unpack m offset packed = .ok (m.unpack offset packed) := by
  have hu := unpack_lt m offset packed
  unfold unpack Memory.unpack at *
  rw [element_packingRules, ok_bind]
  dsimp only at hu ⊢
  rw [mul_of_lt (by omega), ok_bind]
  split
  · next offsets =>
    rw [if_pos offsets] at hu
    rw [mul_of_lt (by omega), ok_bind, add_of_lt (by omega)]
  · rfl

end Reading

section Writing

variable {a n : Nat}

theorem write_tracks {width : Nat} {act : Action Memory Unit} (ha : a < 2 ^ 32)
    (hw : width < 2 ^ 32) (size : Leads Memory.SameSize act)
    (inside : ∀ m : Memory, a + width ≤ m.bytes.size → ∃ m', act m = .ok () m')
    (outside : ∀ m : Memory, m.bytes.size < a + width → act m = .error (m.outside a width) m) :
    Tracks (Memory.Sized n) (do read (target width a); plainly act) act := by
  apply Tracks.guarded (fun m hm => (size m).trans hm)
  intro m _
  have hs := m.size_le
  unfold target
  by_cases h : a + width ≤ m.bytes.size
  · refine .inl ⟨?_, (), inside m h⟩
    simp (disch := omega) only [check_inside, add_of_lt, ok_bind]
    exact span_of_le (Nat.le_add_right a width) h
  · refine .inr ⟨m.outside a width, outside_expected ha, ?_, outside m (by omega)⟩
    rw [check_outside ha hw (by omega)]
    rfl

theorem setByte_tracks {v : UInt8} (ha : a < 2 ^ 32) :
    Tracks (Memory.Sized n) (setByte a v) (Memory.setByte a v) := by
  apply write_tracks ha (by decide) Memory.setByte_sameSize
  · intro m h
    exact ⟨_, dif_pos h⟩
  · intro m h
    exact dif_neg (by omega)

theorem setWord_tracks {w : UInt16} (ha : a < 2 ^ 32) :
    Tracks (Memory.Sized n) (setWord a w) (Memory.setWord a w) := by
  apply write_tracks ha (by decide) Memory.setWord_sameSize
  · intro m h
    exact ⟨_, dif_pos h⟩
  · intro m h
    exact dif_neg (by omega)

theorem setDword_tracks {d : UInt32} (ha : a < 2 ^ 32) :
    Tracks (Memory.Sized n) (setDword a d) (Memory.setDword a d) := by
  apply write_tracks ha (by decide) Memory.setDword_sameSize
  · intro m h
    exact ⟨_, dif_pos h⟩
  · intro m h
    exact dif_neg (by omega)

theorem setBytes_tracks {i : Nat} {bytes : List UInt8} (h : a + i + bytes.length ≤ 2 ^ 32) :
    Tracks (Memory.Sized n) (setBytes a i bytes) (Memory.setBytes (a + i) bytes) := by
  induction bytes generalizing i with
  | nil => exact .pure _
  | cons b rest ih =>
    rw [List.length_cons] at h
    unfold setBytes Memory.setBytes
    rw [add_of_lt (by omega), lift_ok_bind]
    exact .bind (setByte_tracks (by omega)) fun _ => ih (by omega)

theorem copyFrom_tracks {start : Array UInt8} (h : start.size < 2 ^ 32) :
    Tracks (Memory.Sized n) (copyFrom start) (Memory.copyFrom start) := by
  apply Tracks.guarded (fun m hm => (Memory.copyFrom_sameSize m).trans hm)
  intro m _
  have hz : (0 : Nat) < 2 ^ 32 := by decide
  unfold beginning
  rw [Nat.mod_eq_of_lt h]
  by_cases inside : start.size ≤ m.bytes.size
  · refine .inl ⟨?_, (), _, dif_pos inside⟩
    rw [check_inside hz (by omega), ok_bind]
    exact span_of_le (Nat.zero_le _) inside
  · refine .inr ⟨m.outside 0 start.size, outside_expected hz, ?_, dif_neg inside⟩
    rw [check_outside hz h (by omega)]
    rfl

end Writing

end Checked

end ZMachine
