import Mathlib.Algebra.Group.Nat.Defs
import ZMachine.Proofs.Text.Packing

namespace ZMachine

theorem Terminated.ne_nil {ws : List UInt16} (h : Terminated ws) : ws ≠ [] := by
  cases h <;> simp

namespace Memory

variable {m : Memory} {a start left : Nat} {e : Fault} {ws : List UInt16}

def Leaves (m : Memory) (a : Nat) (e : Fault) : Prop :=
  ∃ b width, a ≤ b ∧ m.size < b + width ∧ e = .memory b width m.size

theorem Leaves.mono {b : Nat} (h : m.Leaves b e) (hab : a ≤ b) : m.Leaves a e := by
  obtain ⟨c, width, hbc, hc, he⟩ := h
  exact ⟨c, width, Nat.le_trans hab hbc, hc, he⟩

theorem byte_error (ha : a < 2 ^ 32) (h : m.byte a = .error e) : m.Leaves a e := by
  by_cases hin : a < m.bytes.size
  · simp [byte, hin] at h
  · simp only [byte, hin, ↓reduceDIte, outside, if_pos (show a < UInt32.size from ha), Except.error.injEq] at h
    exact ⟨a, 1, Nat.le_refl a, by simp only [size]; omega, h.symm⟩

theorem word_error (ha : a < 2 ^ 32) (h : m.word a = .error e) : m.Leaves a e := by
  by_cases hin : a + 1 < m.bytes.size
  · simp [word, hin] at h
  · simp only [word, hin, ↓reduceDIte, outside, if_pos (show a < UInt32.size from ha), Except.error.injEq] at h
    exact ⟨a, 2, Nat.le_refl a, by simp only [size]; omega, h.symm⟩

def Unended (m : Memory) (a n : Nat) : Prop :=
  ∀ k < n, ∃ w, m.word (a + 2 * k) = .ok w ∧ endsText w = false

theorem Unended.cons {n : Nat} {w : UInt16} (hw : m.word a = .ok w) (he : endsText w = false)
    (h : m.Unended (a + 2) n) : m.Unended a (n + 1) := by
  intro k hk
  cases k with
  | zero => exact ⟨w, hw, he⟩
  | succ k =>
    rw [show a + 2 * (k + 1) = a + 2 + 2 * k by omega]
    exact h k (by omega)

theorem Unended.tail {n : Nat} (h : m.Unended a (n + 1)) : m.Unended (a + 2) n := by
  intro k hk
  rw [show a + 2 + 2 * k = a + 2 * (k + 1) by omega]
  exact h (k + 1) (by omega)

theorem stores_of_stringWordsFrom (h : m.stringWordsFrom start left a = .ok ws) :
    m.Stores a ws ∧ Terminated ws ∧ ws.length ≤ left := by
  induction left generalizing a ws with
  | zero => cases h
  | succ left ih =>
    obtain ⟨w, hw, h⟩ := ok_of_bind_except h
    split at h
    · next hend =>
      cases h
      exact ⟨⟨hw, trivial⟩, .last hend, by simp⟩
    · next hmore =>
      obtain ⟨rest, hrest, h⟩ := ok_of_bind_except h
      cases h
      obtain ⟨hstores, hterm, hlen⟩ := ih hrest
      exact ⟨⟨hw, hstores⟩, .more (by simpa using hmore) hterm, by simpa using hlen⟩

theorem stringWords_iff : m.stringWords a = .ok ws ↔ m.Stores a ws ∧ Terminated ws ∧ ws.length ≤ 4096 := by
  constructor
  · exact stores_of_stringWordsFrom
  · rintro ⟨hstores, hterm, hlen⟩
    exact hstores.stringWordsFrom hterm hlen

theorem stringWordsFrom_of_unended (h : m.Unended a left) :
    m.stringWordsFrom start left a = .error (.malformedText (.unterminated start)) := by
  induction left generalizing a with
  | zero => rfl
  | succ left ih =>
    obtain ⟨w, hw, hmore⟩ := h 0 (Nat.succ_pos left)
    rw [stringWordsFrom, show m.word a = .ok w from hw]
    refine (if_neg (by simp [hmore])).trans ?_
    rw [ih h.tail]
    rfl

theorem stringWordsFrom_error (ha : a < 2 ^ 32) (h : m.stringWordsFrom start left a = .error e) :
    m.Unended a left ∧ e = .malformedText (.unterminated start) ∨ m.Leaves a e := by
  induction left generalizing a with
  | zero =>
    cases h
    exact .inl ⟨by intro k hk; omega, rfl⟩
  | succ left ih =>
    obtain hw | ⟨w, hw, h⟩ := error_of_bind_except h
    · exact .inr (word_error ha hw)
    have hin := word_inside hw
    have hsize := m.size_le
    split at h
    · cases h
    · next hmore =>
      obtain hrest | ⟨rest, -, h⟩ := error_of_bind_except h
      · obtain ⟨hun, he⟩ | hleaves := ih (by omega) hrest
        · exact .inl ⟨hun.cons hw (by simpa using hmore), he⟩
        · exact .inr (hleaves.mono (by omega))
      · cases h

theorem stringWords_error (ha : a < 2 ^ 32) (h : m.stringWords a = .error e) :
    m.Unended a 4096 ∧ e = .malformedText (.unterminated a) ∨ m.Leaves a e :=
  stringWordsFrom_error ha h

theorem Stores.le_size (h : m.Stores a ws) (hws : ws ≠ []) : a + 2 * ws.length ≤ m.size := by
  induction ws generalizing a with
  | nil => exact absurd rfl hws
  | cons w ws ih =>
    cases ws with
    | nil =>
      have hin := word_inside h.1
      simp only [List.length_singleton, size]
      omega
    | cons w' ws =>
      have hrest := ih h.2 (by simp)
      rw [List.length_cons]
      omega

end Memory

end ZMachine
