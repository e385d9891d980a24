import ZMachine.Proofs.Memory.Access

namespace ZMachine

theorem toNat_packWord (last : Bool) (a b c : Zchar) :
    (packWord last a b c).toNat = (if last then 32768 else 0) + a.val * 1024 + b.val * 32 + c.val := by
  have ha := a.isLt
  have hb := b.isLt
  have hc := c.isLt
  rw [packWord, UInt16.toNat_ofNat']
  apply Nat.mod_eq_of_lt
  split <;> omega

theorem unpackWord_packWord (last : Bool) (a b c : Zchar) : unpackWord (packWord last a b c) = [a, b, c] := by
  have ha := a.isLt
  have hb := b.isLt
  have hc := c.isLt
  rw [unpackWord, toNat_packWord]
  cases last <;> simp [Fin.ext_iff] <;> omega

theorem endsText_packWord (last : Bool) (a b c : Zchar) : endsText (packWord last a b c) = last := by
  have ha := a.isLt
  have hb := b.isLt
  have hc := c.isLt
  rw [endsText, toNat_packWord]
  cases last <;> simp <;> omega

/-- The words of one string: the end bit is on the last and on no other. -/
inductive Terminated : List UInt16 → Prop where
  | last {w : UInt16} (h : endsText w = true) : Terminated [w]
  | more {w : UInt16} {ws : List UInt16} (h : endsText w = false) (hws : Terminated ws) : Terminated (w :: ws)

theorem pack_terminated {zs : List Zchar} (h : zs ≠ []) : Terminated (pack zs) := by
  fun_induction pack zs with
  | case1 => exact absurd rfl h
  | case2 a => exact .last (endsText_packWord ..)
  | case3 a b => exact .last (endsText_packWord ..)
  | case4 a b c => exact .last (endsText_packWord ..)
  | case5 a b c rest hrest ih => exact .more (endsText_packWord ..) (ih (by simpa using hrest))

theorem unpack_pack (zs : List Zchar) :
    ∃ k < 3, (pack zs).flatMap unpackWord = zs ++ List.replicate k 5 := by
  fun_induction pack zs with
  | case1 => exact ⟨0, by decide, rfl⟩
  | case2 a => exact ⟨2, by decide, by simp [unpackWord_packWord]⟩
  | case3 a b => exact ⟨1, by decide, by simp [unpackWord_packWord]⟩
  | case4 a b c => exact ⟨0, by decide, by simp [unpackWord_packWord]⟩
  | case5 a b c rest _ ih =>
    obtain ⟨k, hk, heq⟩ := ih
    refine ⟨k, hk, ?_⟩
    rw [List.flatMap_cons, unpackWord_packWord, heq]
    rfl

theorem length_pack (zs : List Zchar) : (pack zs).length = (zs.length + 2) / 3 := by
  fun_induction pack zs with
  | case1 => rfl
  | case2 a => simp
  | case3 a b => simp
  | case4 a b c => simp
  | case5 a b c rest _ ih =>
    simp only [List.length_cons, ih]
    omega

@[simp] theorem length_resize (n : Nat) (zs : List Zchar) : (resize n zs).length = n := by
  simp only [resize, List.length_append, List.length_take, List.length_replicate]
  omega

theorem length_encodeWord (A : Alphabets) (version : UInt8) (text : List Char) :
    (encodeWord A version text).length = (resolution version + 2) / 3 := by
  simp only [encodeWord, length_pack, length_resize]

theorem resize_append {n : Nat} {zs : List Zchar} (h : n ≤ zs.length) (more : List Zchar) :
    resize n (zs ++ more) = resize n zs := by
  have full : n - zs.length = 0 := Nat.sub_eq_zero_of_le h
  have full' : n - (zs ++ more).length = 0 := by
    rw [List.length_append]
    omega
  rw [resize, resize, full, full', List.take_append_of_le_length h]

theorem resize_zcharsUpTo (A : Alphabets) (n : Nat) (zs : List Zchar) (text : List Char) :
    resize n (zcharsUpTo A n zs text) = resize n (zs ++ text.flatMap (zchars A)) := by
  induction text generalizing zs with
  | nil => rw [zcharsUpTo, List.flatMap_nil, List.append_nil]
  | cons c rest ih =>
    rw [zcharsUpTo]
    split
    · next full => rw [resize_append full]
    · rw [ih, List.flatMap_cons, List.append_assoc]

theorem encodeWord_eq_whole (A : Alphabets) (version : UInt8) (text : List Char) :
    encodeWord A version text =
      pack (resize (resolution version) ((text.flatMap lowerCase).flatMap (zchars A))) := by
  rw [encodeWord, resize_zcharsUpTo, List.nil_append]

namespace Memory

variable {m : Memory} {a : Nat} {ws : List UInt16}

/-- These words stand in memory one after the other from `a`. -/
def Stores (m : Memory) : Nat → List UInt16 → Prop
  | _, [] => True
  | a, w :: ws => m.word a = .ok w ∧ Stores m (a + 2) ws

theorem Stores.stringWordsFrom {start left : Nat} (h : m.Stores a ws) (hws : Terminated ws)
    (hleft : ws.length ≤ left) : m.stringWordsFrom start left a = .ok ws := by
  induction hws generalizing a left with
  | last hw =>
    obtain _ | left := left
    · cases hleft
    · rw [Memory.stringWordsFrom, h.1]
      exact if_pos hw
  | more hw _ ih =>
    obtain _ | left := left
    · cases hleft
    · rw [Memory.stringWordsFrom, h.1]
      refine (if_neg (by simp [hw])).trans ?_
      rw [ih h.2 (Nat.le_of_succ_le_succ hleft)]
      rfl

end Memory

theorem Machine.setWords_ok {m : Memory} {a : Nat} {ws : List UInt16} (h : a + 2 * ws.length ≤ m.bytes.size) :
    ∃ m', setWords a ws m = .ok () m' ∧ Memory.ChangesAt a (2 * ws.length) m m' ∧ m'.Stores a ws := by
  induction ws generalizing a m with
  | nil => exact ⟨m, rfl, ⟨rfl, fun _ _ => rfl⟩, trivial⟩
  | cons w ws ih =>
    rw [List.length_cons] at h
    obtain ⟨m₁, hset, hc, hw⟩ := Memory.setWord_ok w (show a + 1 < m.bytes.size by omega)
    have hsize : m₁.bytes.size = m.bytes.size := hc.size
    obtain ⟨m₂, hset', hc', hws⟩ := ih (show a + 2 + 2 * ws.length ≤ m₁.bytes.size by omega)
    refine ⟨m₂, (bind_ok _ hset).trans hset', ⟨hc'.size.trans hsize, ?_⟩, ?_, hws⟩
    · intro b hb
      rw [List.length_cons] at hb
      rw [hc'.byte b (by omega), hc.byte b (by omega)]
    · rw [hc'.word (by omega), hw]

end ZMachine
