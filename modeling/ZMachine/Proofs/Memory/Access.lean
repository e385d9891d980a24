import ZMachine.Proofs.Memory.Size

namespace ZMachine

theorem ofBytes16_high_low (w : UInt16) : ofBytes16 (highByte w) (lowByte w) = w := by
  apply UInt16.toNat_inj.1
  have hw := w.toNat_lt
  simp only [ofBytes16, highByte, lowByte, UInt16.toNat_ofNat', UInt8.toNat_ofNat']
  omega

theorem toNat_ofBytes16 (high low : UInt8) :
    (ofBytes16 high low).toNat = high.toNat * 256 + low.toNat := by
  have hh := high.toNat_lt
  have hl := low.toNat_lt
  apply UInt16.toNat_ofNat_of_lt'
  change _ < 65536
  omega

theorem ofBytes16_zero (v : UInt8) : ofBytes16 0 v = v.toUInt16 := by
  apply UInt16.toNat_inj.1
  rw [toNat_ofBytes16, UInt8.toNat_toUInt16, show (0 : UInt8).toNat = 0 from rfl, Nat.zero_mul, Nat.zero_add]

namespace Memory

variable {m n : Memory} {a b : Nat}

theorem byte_set (v : UInt8) (h : a < m.bytes.size) :
    (m.set a v h).byte b = if b = a then .ok v else m.byte b := by
  by_cases hb : b = a
  · subst hb
    simp [byte, set, h]
  · simp only [byte, size_set, outside, size, hb, ↓reduceIte]
    split
    · simp only [set, Array.getElem_set, Ne.symm hb, ↓reduceIte]
    · rfl

theorem byte_inside {v : UInt8} (h : m.byte a = .ok v) : a < m.bytes.size := by
  by_cases ha : a < m.bytes.size
  · exact ha
  · simp [byte, ha] at h

theorem byte_of_lt (h : a < m.bytes.size) : ∃ v, m.byte a = .ok v := ⟨_, dif_pos h⟩

theorem word_of_bytes {high low : UInt8} (hh : m.byte a = .ok high) (hl : m.byte (a + 1) = .ok low) :
    m.word a = .ok (ofBytes16 high low) := by
  have h := byte_inside hl
  have h' := byte_inside hh
  simp only [byte, h, h', ↓reduceDIte, Except.ok.injEq] at hh hl
  simp only [word, h, ↓reduceDIte, hh, hl]

theorem word_inside {w : UInt16} (h : m.word a = .ok w) : a + 1 < m.bytes.size := by
  by_cases ha : a + 1 < m.bytes.size
  · exact ha
  · simp [word, ha] at h

theorem word_of_lt (h : a + 1 < m.bytes.size) : ∃ w, m.word a = .ok w := ⟨_, dif_pos h⟩

theorem word_congr (hs : m.SameSize n) (hh : n.byte a = m.byte a)
    (hl : n.byte (a + 1) = m.byte (a + 1)) : n.word a = m.word a := by
  by_cases h : a + 1 < m.bytes.size
  · obtain ⟨high, hm⟩ := byte_of_lt (show a < m.bytes.size by omega)
    obtain ⟨low, hm'⟩ := byte_of_lt h
    rw [word_of_bytes hm hm', word_of_bytes (hh.trans hm) (hl.trans hm')]
  · have hsize : n.bytes.size = m.bytes.size := hs
    simp only [word, h, ↓reduceDIte, outside, size, hsize]

/-- `n` is `m` with new bytes at the `width` places from `a`. -/
structure ChangesAt (a width : Nat) (m n : Memory) : Prop where
  size : m.SameSize n
  byte : ∀ b, b < a ∨ a + width ≤ b → n.byte b = m.byte b

theorem ChangesAt.word {width : Nat} (h : ChangesAt a width m n) (hb : b + 2 ≤ a ∨ a + width ≤ b) :
    n.word b = m.word b := by
  apply word_congr h.size
  · apply h.byte
    omega
  · apply h.byte
    omega

theorem setByte_ok (v : UInt8) (h : a < m.bytes.size) :
    ∃ n, setByte a v m = .ok () n ∧ ChangesAt a 1 m n ∧ n.byte a = .ok v := by
  refine ⟨m.set a v h, dif_pos h, ⟨size_set .., ?_⟩, ?_⟩
  · intro b hb
    rw [byte_set, if_neg (by omega)]
  · rw [byte_set, if_pos rfl]

theorem setWord_ok (w : UInt16) (h : a + 1 < m.bytes.size) :
    ∃ n, setWord a w m = .ok () n ∧ ChangesAt a 2 m n ∧ n.word a = .ok w := by
  refine ⟨_, dif_pos h, ⟨?_, ?_⟩, ?_⟩
  · simp only [SameSize, size_set]
  · intro b hb
    rw [byte_set, if_neg (by omega), byte_set, if_neg (by omega)]
  · have high : ((m.set a (highByte w) (by omega)).set (a + 1) (lowByte w) (by simpa using h)).byte a =
        .ok (highByte w) := by
      rw [byte_set, if_neg (by omega), byte_set, if_pos rfl]
    have low : ((m.set a (highByte w) (by omega)).set (a + 1) (lowByte w) (by simpa using h)).byte
        (a + 1) = .ok (lowByte w) := by
      rw [byte_set, if_pos rfl]
    rw [word_of_bytes high low, ofBytes16_high_low]

theorem setByte_changes {v : UInt8} (h : setByte a v m = .ok () n) : ChangesAt a 1 m n := by
  by_cases ha : a < m.bytes.size
  · obtain ⟨n', hset, hc, -⟩ := setByte_ok v ha
    cases hset.symm.trans h
    exact hc
  · rw [setByte, dif_neg ha] at h
    cases h

theorem setWord_changes {w : UInt16} (h : setWord a w m = .ok () n) : ChangesAt a 2 m n := by
  by_cases ha : a + 1 < m.bytes.size
  · obtain ⟨n', hset, hc, -⟩ := setWord_ok w ha
    cases hset.symm.trans h
    exact hc
  · rw [setWord, dif_neg ha] at h
    cases h

theorem dword_of_words {high low : UInt16} (hh : m.word a = .ok high) (hl : m.word (a + 2) = .ok low) :
    m.dword a = .ok (UInt32.ofNat (high.toNat * 65536 + low.toNat)) := by
  have h : a + 3 < m.bytes.size := by
    by_cases h : a + 2 + 1 < m.bytes.size
    · exact h
    · simp [word, h] at hl
  have h' : a + 1 < m.bytes.size := by omega
  simp only [word, h', show a + 2 + 1 < m.bytes.size from h, ↓reduceDIte, Except.ok.injEq] at hh hl
  simp only [dword, h, ↓reduceDIte, hh, hl]

theorem dword_of_lt (h : a + 3 < m.bytes.size) : ∃ d, m.dword a = .ok d := ⟨_, dif_pos h⟩

theorem dword_congr (hs : m.SameSize n) (hh : n.word a = m.word a)
    (hl : n.word (a + 2) = m.word (a + 2)) : n.dword a = m.dword a := by
  by_cases h : a + 3 < m.bytes.size
  · obtain ⟨high, hm⟩ := word_of_lt (m := m) (a := a) (by omega)
    obtain ⟨low, hm'⟩ := word_of_lt (m := m) (a := a + 2) h
    rw [dword_of_words hm hm', dword_of_words (hh.trans hm) (hl.trans hm')]
  · have hsize : n.bytes.size = m.bytes.size := hs
    simp only [dword, h, ↓reduceDIte, outside, size, hsize]

theorem ChangesAt.dword {width : Nat} (h : ChangesAt a width m n)
    (hb : b + 4 ≤ a ∨ a + width ≤ b) : n.dword b = m.dword b := by
  apply dword_congr h.size
  · apply h.word
    omega
  · apply h.word
    omega

theorem setDword_eq (d : UInt32) (h : a + 3 < m.bytes.size) :
    setDword a d m = (do
      setWord a (UInt16.ofNat (d.toNat / 65536))
      setWord (a + 2) (UInt16.ofNat d.toNat)) m := by
  have hhigh : a + 1 < m.bytes.size := by omega
  rw [setDword, dif_pos h, bind_ok _ (dif_pos hhigh), setWord, dif_pos (by simpa using h)]

theorem setDword_ok (d : UInt32) (h : a + 3 < m.bytes.size) :
    ∃ n, setDword a d m = .ok () n ∧ ChangesAt a 4 m n ∧ n.dword a = .ok d := by
  obtain ⟨m₁, hset, hc, hw⟩ := setWord_ok (m := m) (a := a) (UInt16.ofNat (d.toNat / 65536)) (by omega)
  have h₁ : a + 2 + 1 < m₁.bytes.size := hc.size ▸ h
  obtain ⟨m₂, hset₂, hc₂, hw₂⟩ := setWord_ok (UInt16.ofNat d.toNat) h₁
  refine ⟨m₂, ?_, ⟨?_, ?_⟩, ?_⟩
  · rw [setDword_eq d h, bind_ok _ hset, hset₂]
  · exact hc₂.size.trans hc.size
  · intro b hb
    rw [hc₂.byte b (by omega), hc.byte b (by omega)]
  · have hhigh : m₂.word a = .ok (UInt16.ofNat (d.toNat / 65536)) := by
      rw [hc₂.word (by omega), hw]
    rw [dword_of_words hhigh hw₂]
    congr 1
    apply UInt32.toNat_inj.1
    have hd := d.toNat_lt
    simp only [UInt32.toNat_ofNat', UInt16.toNat_ofNat']
    omega

theorem byte_congr (hs : m.SameSize n) (h : n.bytes[a]? = m.bytes[a]?) : n.byte a = m.byte a := by
  have size : n.bytes.size = m.bytes.size := hs
  by_cases ha : a < m.bytes.size
  · have ha' : a < n.bytes.size := size ▸ ha
    rw [Array.getElem?_eq_getElem ha, Array.getElem?_eq_getElem ha'] at h
    simp only [byte, ha, ha', ↓reduceDIte, Option.some.inj h]
  · simp only [byte, size, ha, ↓reduceDIte, outside, Memory.size]

theorem copyFrom_ok {start : Array UInt8} (h : start.size ≤ m.bytes.size) :
    ∃ n, copyFrom start m = .ok () n ∧ ChangesAt 0 start.size m n ∧
      ∀ i (hi : i < start.size), n.byte i = .ok start[i] := by
  have same : (start ++ m.bytes.extract start.size).size = m.bytes.size := by
    rw [Array.size_append, Array.size_extract]
    omega
  refine ⟨_, dif_pos h, ⟨same, fun b hb => ?_⟩, fun i hi => ?_⟩
  · refine byte_congr (n := ⟨_, _, _⟩) same ?_
    rw [Array.getElem?_append_right (by omega), Array.getElem?_extract]
    split
    · congr 1
      omega
    · rw [Array.getElem?_eq_none (by omega)]
  · have inside : i < (start ++ m.bytes.extract start.size).size := by
      rw [same]
      omega
    rw [byte, dif_pos inside, Array.getElem_append_left hi]

/-- `n` differs from `m` at places with the property only. -/
structure ChangesWithin (P : Nat → Prop) (m n : Memory) : Prop where
  size : m.SameSize n
  byte : ∀ b, ¬ P b → n.byte b = m.byte b

namespace ChangesWithin

variable {P Q : Nat → Prop}

instance : IsPreorder Memory (ChangesWithin P) where
  refl _ := ⟨rfl, fun _ _ => rfl⟩
  trans _ _ _ h h' := ⟨h'.size.trans h.size, fun b hb => (h'.byte b hb).trans (h.byte b hb)⟩

theorem mono (h : ChangesWithin P m n) (hpq : ∀ b, P b → Q b) : ChangesWithin Q m n :=
  ⟨h.size, fun b hb => h.byte b (hb ∘ hpq b)⟩

theorem word (h : ChangesWithin P m n) (hb : ∀ c, b ≤ c → c < b + 2 → ¬ P c) :
    n.word b = m.word b := by
  apply word_congr h.size
  · exact h.byte b (hb b (by omega) (by omega))
  · exact h.byte (b + 1) (hb (b + 1) (by omega) (by omega))

theorem dword (h : ChangesWithin P m n) (hb : ∀ c, b ≤ c → c < b + 4 → ¬ P c) :
    n.dword b = m.dword b := by
  apply dword_congr h.size
  · exact h.word fun c hc hc' => hb c hc (by omega)
  · exact h.word fun c hc hc' => hb c (by omega) (by omega)

end ChangesWithin

theorem ChangesAt.within {P : Nat → Prop} {width : Nat} (h : ChangesAt a width m n)
    (hp : ∀ b, a ≤ b → b < a + width → P b) : ChangesWithin P m n := by
  refine ⟨h.size, fun b hb => h.byte b ?_⟩
  by_cases hin : a ≤ b ∧ b < a + width
  · exact absurd (hp b hin.1 hin.2) hb
  · omega

theorem eq_of_bytes (hs : m.SameSize n) (h : ∀ a, n.byte a = m.byte a) : n = m := by
  have bytes : n.bytes = m.bytes := by
    apply Array.ext hs
    intro a hn hm
    have ha := h a
    simp only [byte, hn, hm, ↓reduceDIte] at ha
    exact Except.ok.inj ha
  cases m
  cases n
  cases bytes
  rfl

theorem setWord_of_changesAt (w : UInt16) (h : ChangesAt a 2 m n) (ha : a + 1 < m.bytes.size) :
    setWord a w n = setWord a w m := by
  have ha' : a + 1 < n.bytes.size := h.size ▸ ha
  rw [setWord, setWord, dif_pos ha', dif_pos ha]
  congr 1
  apply eq_of_bytes
  · simp only [SameSize, size_set]
    exact h.size
  · intro b
    simp only [byte_set]
    split
    · rfl
    · next low =>
      split
      · rfl
      · next high => exact h.byte b (by omega)

end Memory

end ZMachine
