import ZMachine.Proofs.Checked.Memory

namespace ZMachine

inductive Width where
  | byte
  | word
  | dword

/-- The number that the first `n` cells make up, the most significant first. -/
def bigEndian (cells : Nat → UInt8) : Nat → Nat
  | 0 => 0
  | n + 1 => bigEndian cells n * 256 + (cells n).toNat

/-- The cells with `new` in place of the `width` from `a`. -/
def overlay (a width : Nat) (new cells : Nat → UInt8) (x : Nat) : UInt8 :=
  if a ≤ x ∧ x < a + width then new (x - a) else cells x

namespace Width

def bytes : Width → Nat
  | byte => 1
  | word => 2
  | dword => 4

abbrev Value : Width → Type
  | byte => UInt8
  | word => UInt16
  | dword => UInt32

def toNat : (w : Width) → w.Value → Nat
  | byte, v => UInt8.toNat v
  | word, v => UInt16.toNat v
  | dword, v => UInt32.toNat v

def ofNat : (w : Width) → Nat → w.Value
  | byte, n => UInt8.ofNat n
  | word, n => UInt16.ofNat n
  | dword, n => UInt32.ofNat n

def compose (w : Width) (cells : Nat → UInt8) : w.Value := w.ofNat (bigEndian cells w.bytes)

/-- Byte `i` of a value, 0 the most significant. -/
def digit (w : Width) (v : w.Value) (i : Nat) : UInt8 :=
  UInt8.ofNat (w.toNat v / 256 ^ (w.bytes - 1 - i))

end Width

namespace Memory

def view (m : Memory) : (w : Width) → Nat → Except Fault w.Value
  | .byte, a => m.byte a
  | .word, a => m.word a
  | .dword, a => m.dword a

def setView : (w : Width) → Nat → w.Value → Action Memory Unit
  | .byte, a, v => setByte a v
  | .word, a, v => setWord a v
  | .dword, a, v => setDword a v

def cell (m : Memory) (x : Nat) : UInt8 := m.bytes.getD x 0

/-- All views of the memory are made up of these cells. -/
structure ReadsAs (m : Memory) (size : Nat) (cells : Nat → UInt8) : Prop where
  size_eq : m.size = size
  view : ∀ (w : Width) (a : UInt32), m.view w a.toNat =
    if a.toNat + w.bytes ≤ size then .ok (w.compose fun i => cells (a.toNat + i))
    else .error (.memory a.toNat w.bytes size)

/-- From `m` the action puts `new` into the `width` places from `a`, and does nothing at all if one of
them lies outside. -/
structure Replaces {ε : Type} (m : Memory) (act : EStateM ε Memory Unit) (a width : Nat)
    (new : Nat → UInt8) : Prop where
  succeeds : (∃ n, act m = .ok () n) ↔ a + width ≤ m.size
  failed : ∀ e n, act m = .error e n → n = m
  written : ∀ n, act m = .ok () n → n.ReadsAs m.size (overlay a width new m.cell)

end Memory

namespace Checked

def view (m : Memory) : (w : Width) → Nat → Calc w.Value
  | .byte, a => byte m a
  | .word, a => word m a
  | .dword, a => dword m a

def setView : (w : Width) → Nat → w.Value → Work Memory Unit
  | .byte, a, v => setByte a v
  | .word, a, v => setWord a v
  | .dword, a, v => setDword a v

end Checked

section Digits

variable {f : Nat → UInt8} {n i : Nat}

theorem bigEndian_lt (f : Nat → UInt8) (n : Nat) : bigEndian f n < 256 ^ n := by
  induction n with
  | zero => simp [bigEndian]
  | succ n ih =>
    have hf := (f n).toNat_lt
    rw [bigEndian, Nat.pow_succ]
    omega

theorem bigEndian_congr {g : Nat → UInt8} (h : ∀ i < n, f i = g i) :
    bigEndian f n = bigEndian g n := by
  induction n with
  | zero => rfl
  | succ n ih =>
    rw [bigEndian, bigEndian, ih fun i hi => h i (by omega), h n (by omega)]

theorem bigEndian_digit (h : i < n) : UInt8.ofNat (bigEndian f n / 256 ^ (n - 1 - i)) = f i := by
  induction n with
  | zero => omega
  | succ n ih =>
    have hf := (f n).toNat_lt
    rw [bigEndian]
    by_cases hi : i = n
    · subst hi
      apply UInt8.toNat_inj.mp
      simp only [Nat.add_sub_cancel, Nat.sub_self, Nat.pow_zero, Nat.div_one, UInt8.toNat_ofNat']
      omega
    · have higher : (bigEndian f n * 256 + (f n).toNat) / 256 = bigEndian f n := by omega
      rw [show n + 1 - 1 - i = n - 1 - i + 1 by omega, Nat.pow_succ', ← Nat.div_div_eq_div_mul, higher]
      exact ih (by omega)

namespace Width

variable {w : Width}

theorem toNat_ofNat (h : n < 256 ^ w.bytes) : w.toNat (w.ofNat n) = n := by
  cases w with
  | byte => exact UInt8.toNat_ofNat_of_lt' h
  | word => exact UInt16.toNat_ofNat_of_lt' h
  | dword => exact UInt32.toNat_ofNat_of_lt' h

theorem compose_congr {g : Nat → UInt8} (h : ∀ i < w.bytes, f i = g i) : w.compose f = w.compose g := by
  rw [compose, compose, bigEndian_congr h]

theorem digit_compose (h : i < w.bytes) : w.digit (w.compose f) i = f i := by
  rw [digit, compose, toNat_ofNat (bigEndian_lt f w.bytes), bigEndian_digit h]

end Width

end Digits

namespace Memory

variable {m n : Memory} {a x width : Nat} {new cells : Nat → UInt8} {w : Width}

theorem byte_cell (h : x < m.bytes.size) : m.byte x = .ok (m.cell x) := by
  rw [byte, dif_pos h, cell, Array.getElem_eq_getD]

theorem view_inside (h : a + w.bytes ≤ m.bytes.size) :
    m.view w a = .ok (w.compose fun i => m.cell (a + i)) := by
  cases w with
  | byte =>
    have byte : m.byte a = .ok (m.cell a) := byte_cell h
    simp only [view, byte, Width.compose, Width.ofNat, Width.bytes, bigEndian, Nat.zero_mul, Nat.zero_add,
      Nat.add_zero, UInt8.ofNat_toNat]
  | word =>
    have word : m.word a = .ok (ofBytes16 (m.cell a) (m.cell (a + 1))) :=
      word_of_bytes (byte_cell (Nat.lt_of_succ_lt h)) (byte_cell h)
    simp only [view, word, ofBytes16, Width.compose, Width.ofNat, Width.bytes, bigEndian, Nat.zero_mul,
      Nat.zero_add, Nat.add_zero]
  | dword =>
    have room : a + 4 ≤ m.bytes.size := h
    have high := word_of_bytes (m := m) (a := a) (byte_cell (by omega)) (byte_cell (by omega))
    have low := word_of_bytes (m := m) (a := a + 2) (byte_cell (by omega)) (byte_cell (by omega))
    have sum (b₀ b₁ b₂ b₃ : Nat) : (b₀ * 256 + b₁) * 65536 + (b₂ * 256 + b₃) =
        ((b₀ * 256 + b₁) * 256 + b₂) * 256 + b₃ := by omega
    simp only [view, dword_of_words high low, toNat_ofBytes16, sum, Width.compose, Width.ofNat, Width.bytes,
      bigEndian, Nat.zero_mul, Nat.zero_add, Nat.add_zero, Nat.add_assoc, Nat.reduceAdd]

theorem view_outside (h : m.bytes.size < a + w.bytes) : m.view w a = .error (m.outside a w.bytes) := by
  have last : ¬ a + w.bytes ≤ m.bytes.size := Nat.not_le.mpr h
  cases w
  all_goals exact dif_neg last

theorem readsAs_of_cells (size : m.size = x) (h : ∀ i < x, m.cell i = cells i) :
    m.ReadsAs x cells := by
  refine ⟨size, fun w a => ?_⟩
  split
  · next inside =>
    rw [view_inside (by rwa [← size] at inside)]
    congr 1
    apply Width.compose_congr
    intro i hi
    apply h
    omega
  · next outside =>
    rw [view_outside (by rw [← size, Memory.size] at outside; omega), Checked.outside_eq a.toNat_lt, size]

theorem cell_of_changes (hc : ChangesAt a width m n) (hnew : ∀ i < width, n.cell (a + i) = new i)
    (h : x < m.bytes.size) : n.cell x = overlay a width new m.cell x := by
  have size : n.bytes.size = m.bytes.size := hc.size
  unfold overlay
  split
  · next inside =>
    rw [← hnew (x - a) (by omega), Nat.add_sub_cancel' inside.1]
  · next outside =>
    have same := hc.byte x (by omega)
    rw [byte_cell (size ▸ h), byte_cell h] at same
    exact Except.ok.inj same

theorem Replaces.of_cases {ε : Type} {act : EStateM ε Memory Unit}
    (inside : a + width ≤ m.bytes.size →
      ∃ n, act m = .ok () n ∧ ChangesAt a width m n ∧ ∀ i < width, n.cell (a + i) = new i)
    (outside : m.bytes.size < a + width → ∃ e, act m = .error e m) : m.Replaces act a width new := by
  by_cases h : a + width ≤ m.bytes.size
  · obtain ⟨n, hact, hc, hnew⟩ := inside h
    constructor
    · exact iff_of_true ⟨n, hact⟩ h
    · intro e n' herror
      cases hact.symm.trans herror
    · intro n' hok
      cases hact.symm.trans hok
      exact readsAs_of_cells hc.size fun x hx => cell_of_changes hc hnew hx
  · obtain ⟨e, hact⟩ := outside (by omega)
    constructor
    · refine iff_of_false ?_ h
      rintro ⟨n, hok⟩
      cases hact.symm.trans hok
    · intro e' n herror
      cases hact.symm.trans herror
      rfl
    · intro n hok
      cases hact.symm.trans hok

theorem setView_ok (v : w.Value) (h : a + w.bytes ≤ m.bytes.size) :
    ∃ n, setView w a v m = .ok () n ∧ ChangesAt a w.bytes m n ∧ n.view w a = .ok v := by
  cases w with
  | byte => exact setByte_ok v h
  | word => exact setWord_ok v h
  | dword => exact setDword_ok v h

theorem setView_outside (v : w.Value) (h : m.bytes.size < a + w.bytes) :
    setView w a v m = .error (m.outside a w.bytes) m := by
  have last : ¬ a + w.bytes ≤ m.bytes.size := Nat.not_le.mpr h
  cases w
  all_goals exact dif_neg last

theorem cell_of_view {v : w.Value} {i : Nat} (h : a + w.bytes ≤ m.bytes.size) (hv : m.view w a = .ok v)
    (hi : i < w.bytes) : m.cell (a + i) = w.digit v i := by
  rw [view_inside h, Except.ok.injEq] at hv
  rw [← hv, Width.digit_compose hi]

theorem setView_replaces (m : Memory) (w : Width) (a : Nat) (v : w.Value) :
    m.Replaces (setView w a v) a w.bytes (w.digit v) := by
  apply Replaces.of_cases
  · intro h
    obtain ⟨n, hset, hc, hv⟩ := setView_ok v h
    have room : a + w.bytes ≤ n.bytes.size := by rwa [hc.size]
    exact ⟨n, hset, hc, fun i hi => cell_of_view room hv hi⟩
  · intro h
    exact ⟨_, setView_outside v h⟩

theorem copyFrom_replaces (m : Memory) (start : Array UInt8) :
    m.Replaces (copyFrom start) 0 start.size (start.getD · 0) := by
  apply Replaces.of_cases
  · intro h
    rw [Nat.zero_add] at h
    obtain ⟨n, hcopy, hc, hbytes⟩ := copyFrom_ok h
    refine ⟨n, hcopy, hc, fun i hi => ?_⟩
    have inside : i < n.bytes.size := by
      rw [hc.size]
      omega
    have hcell := hbytes i hi
    rw [byte_cell inside, Except.ok.injEq] at hcell
    rw [Nat.zero_add, hcell, Array.getElem_eq_getD]
  · intro h
    exact ⟨_, dif_neg (by omega)⟩

end Memory

namespace Checked

variable {m : Memory} {w : Width} {a : Nat}

theorem view_agrees (ha : a < 2 ^ 32) : Agrees (view m w a) (m.view w a) := by
  cases w with
  | byte => exact byte_agrees ha
  | word => exact word_agrees ha
  | dword => exact dword_agrees ha

theorem setView_tracks {n : Nat} (v : w.Value) (ha : a < 2 ^ 32) :
    Tracks (Memory.Sized n) (setView w a v) (Memory.setView w a v) := by
  cases w with
  | byte => exact setByte_tracks ha
  | word => exact setWord_tracks ha
  | dword => exact setDword_tracks ha

theorem Follows.replaces {x : Work Memory Unit} {y : Action Memory Unit} {width : Nat}
    {new : Nat → UInt8} (h : Follows (x m) (y m)) (hy : m.Replaces y a width new) :
    m.Replaces x a width new := by
  generalize hx : x m = r, hr : y m = q at h
  cases h with
  | ok _ n =>
    constructor
    · rw [← hy.succeeds]
      exact iff_of_true ⟨n, hx⟩ ⟨n, hr⟩
    · intro e n' herror
      cases hx.symm.trans herror
    · intro n' hok
      cases hx.symm.trans hok
      exact hy.written n hr
  | error n he =>
    constructor
    · rw [← hy.succeeds]
      apply iff_of_false
      · rintro ⟨n', hok⟩
        cases hx.symm.trans hok
      · rintro ⟨n', hok⟩
        cases hr.symm.trans hok
    · intro e' n' herror
      cases hx.symm.trans herror
      exact hy.failed _ n hr
    · intro n' hok
      cases hx.symm.trans hok

theorem beginning_outside {n : Nat} (h : m.bytes.size < n) : ∃ e, beginning n m = .error e := by
  unfold beginning
  cases check m 0 (n % 2 ^ 32) with
  | error e => exact ⟨e, rfl⟩
  | ok i => exact ⟨.outOfBounds, if_neg fun inside => Nat.not_le.mpr h inside.2⟩

theorem copyFrom_replaces (m : Memory) (start : Array UInt8) :
    m.Replaces (copyFrom start) 0 start.size (start.getD · 0) := by
  by_cases short : start.size < 2 ^ 32
  · exact (copyFrom_tracks short m rfl).1.replaces (Memory.copyFrom_replaces m start)
  · -- The length is cut to 32 bits before it is checked, and whole where the bytes are looked up.
    have hs := m.size_le
    apply Memory.Replaces.of_cases
    · intro h
      omega
    · intro h
      obtain ⟨e, he⟩ := beginning_outside (m := m) (n := start.size) (by omega)
      exact ⟨e, bind_error _ (by rw [read, he])⟩

end Checked

namespace Memory

/-- Reads, writes and copies of all widths by the cells of memory. The end of an access is the same
whether it is told in 64 bits or without bound. -/
theorem views_of_same_cells (m : Memory) :
    m.ReadsAs m.size m.cell ∧
    (∀ (w : Width) (a : UInt32), Checked.Agrees (Checked.view m w a.toNat) (m.view w a.toNat)) ∧
    (∀ (w : Width) (a : UInt32) (v : w.Value),
      m.Replaces (setView w a.toNat v) a.toNat w.bytes (w.digit v) ∧
      m.Replaces (Checked.setView w a.toNat v) a.toNat w.bytes (w.digit v)) ∧
    ∀ start : Array UInt8,
      m.Replaces (copyFrom start) 0 start.size (start.getD · 0) ∧
      m.Replaces (Checked.copyFrom start) 0 start.size (start.getD · 0) := by
  refine ⟨?_, fun w a => ?_, fun w a v => ⟨?_, ?_⟩, fun start => ⟨?_, ?_⟩⟩
  · exact readsAs_of_cells rfl fun _ _ => rfl
  · exact Checked.view_agrees a.toNat_lt
  · exact setView_replaces m w a.toNat v
  · exact (Checked.setView_tracks v a.toNat_lt m rfl).1.replaces (setView_replaces m w a.toNat v)
  · exact copyFrom_replaces m start
  · exact Checked.copyFrom_replaces m start

def numberedMemory : Memory := ⟨Array.ofFn fun i : Fin 70 => UInt8.ofNat i.val, by decide, by decide⟩

theorem views_of_same_cells_end :
    (∃ n, setView .dword 66 0xA1B2C3D4 numberedMemory = .ok () n ∧ n.view .word 65 = .ok 0x41A1 ∧
      n.view .dword 64 = .ok 0x4041A1B2 ∧ n.view .word 69 = .error (.memory 69 2 70) ∧
      n.view .dword 0xFFFFFFFE = .error (.memory 0xFFFFFFFE 4 70)) ∧
    ¬ ∃ n, setView .dword 67 0xA1B2C3D4 numberedMemory = .ok () n := by
  obtain ⟨-, -, writes, -⟩ := views_of_same_cells numberedMemory
  constructor
  · have last := (writes .dword 66 0xA1B2C3D4).1
    obtain ⟨n, hset⟩ := last.succeeds.2 (by decide)
    have reads := (last.written n hset).view
    exact ⟨n, hset, reads .word 65, reads .dword 64, reads .word 69, reads .dword 0xFFFFFFFE⟩
  · have past := (writes .dword 67 0xA1B2C3D4).1
    exact mt past.succeeds.1 (by decide)

end Memory

end ZMachine
