import ZMachine.Proofs.Memory.Access
import ZMachine.Story

namespace ZMachine

theorem Memory.byte_eq_ok_iff {m : Memory} {a : Nat} {v : UInt8} :
    m.byte a = .ok v ↔ m.bytes[a]? = some v := by
  unfold byte
  split
  · next h => simp [Array.getElem?_eq_getElem h]
  · next h => simp [Array.getElem?_eq_none (Nat.le_of_not_lt h)]

namespace Story

theorem length_flatMap_bytesOf (ws : List UInt16) : (ws.flatMap bytesOf).length = 2 * ws.length := by
  induction ws with
  | nil => rfl
  | cons w ws ih =>
    rw [List.flatMap_cons, List.length_append, ih, List.length_cons]
    change 2 + _ = _
    omega

namespace Draft

variable {image : Vector UInt8 imageSize} {bytes : List UInt8} {d : Draft} {a k : Nat}

theorem getElem?_setBytes_outside (h : k < a ∨ a + bytes.length ≤ k) :
    (setBytes a bytes image)[k]? = image[k]? := by
  induction bytes generalizing a image with
  | nil => rfl
  | cons b rest ih =>
    rw [List.length_cons] at h
    rw [setBytes, ih (by omega), Vector.getElem?_setIfInBounds_ne (by omega)]

theorem getElem?_setBytes_inside (h : k < bytes.length) (room : a + k < imageSize) :
    (setBytes a bytes image)[a + k]? = bytes[k]? := by
  induction bytes generalizing a k image with
  | nil => simp at h
  | cons b rest ih =>
    rw [setBytes]
    cases k with
    | zero =>
      change (setBytes (a + 1) rest (image.setIfInBounds a b))[a]? = some b
      rw [getElem?_setBytes_outside (by omega)]
      exact Vector.getElem?_setIfInBounds_self_of_lt room
    | succ k =>
      rw [List.length_cons] at h
      rw [show a + (k + 1) = a + 1 + k by omega, ih (by omega) (by omega)]
      rfl

theorem getElem?_place_outside (h : k < a ∨ a + bytes.length ≤ k) :
    (d.place a bytes).image[k]? = d.image[k]? := getElem?_setBytes_outside h

theorem getElem?_placeWord_outside {w : UInt16} (h : k < a ∨ a + 2 ≤ k) :
    (d.placeWord a w).image[k]? = d.image[k]? := getElem?_setBytes_outside h

theorem getElem?_finish (h : k < 0x1A ∨ 0x1E ≤ k) : d.finish[k]? = d.image[k]? := by
  unfold finish
  dsimp only
  rw [Vector.getElem?_toArray, getElem?_placeWord_outside (by omega), getElem?_placeWord_outside (by omega)]

theorem size_finish (d : Draft) : d.finish.size = imageSize := Vector.size_toArray _

theorem version_blank (version : UInt8) : (blank version).image[0]? = some version := by
  have laid : (setBytes 0 [version] (Vector.replicate imageSize 0))[0]? = some version :=
    getElem?_setBytes_inside (a := 0) (k := 0) Nat.one_pos (by unfold imageSize; omega)
  unfold blank
  dsimp only
  split
  all_goals
    rw [getElem?_placeWord_outside (by omega), getElem?_place_outside (by unfold dictionary; omega),
      getElem?_place_outside (by omega)]
    iterate 6 rw [getElem?_placeWord_outside (by omega)]
    exact laid

theorem load_finish {version : UInt8} (h : d.image[0]? = some version) (known : 1 ≤ version ∧ version ≤ 8) :
    ∃ m, Memory.load d.finish = .ok m := by
  have hversion : d.finish.getD 0 0 = version := by
    rw [Array.getD_eq_getD_getElem?, getElem?_finish (by decide), h]
    rfl
  have hsize := d.size_finish
  have hlimit : imageSize ≤ maxStorySize version := by
    unfold maxStorySize imageSize
    split
    · omega
    · split <;> omega
  generalize d.finish = bytes at hversion hsize
  have hheader : ¬ bytes.size < 64 := by
    rw [hsize, imageSize]
    omega
  have hknown : ¬ (version < 1 ∨ 8 < version) := by
    rw [not_or, UInt8.not_lt, UInt8.not_lt]
    exact known
  have hfits : ¬ maxStorySize version < bytes.size := by omega
  simp only [Memory.load, hversion, dif_neg hheader, if_neg hknown, dif_neg hfits]
  exact ⟨_, rfl⟩

end Draft

end Story

namespace Machine

/-- The header bytes that tell about the interpreter and the screen. -/
def Published (b : Nat) : Prop :=
  b = 0x01 ∨ b = 0x10 ∨ b = 0x11 ∨ 0x1E ≤ b ∧ b < 0x28 ∨ b = 0x32 ∨ b = 0x33

theorem publish_within (version : UInt8) (screen : Screen.Capabilities) (m : Memory) :
    Memory.ChangesWithin Published m (publish version screen m) := by
  refine ⟨publish_sameSize version screen m, fun b hb => ?_⟩
  have byte {k : Fin 64} (v : UInt8) (m : Memory) (hk : Published k.val) :
      (m.setHeaderByte k v).byte b = m.byte b := by
    rw [Memory.setHeaderByte, Memory.byte_set, if_neg]
    rintro rfl
    exact hb hk
  have word {k : Fin 63} (w : UInt16) (m : Memory) (hk : Published k.val ∧ Published (k.val + 1)) :
      (m.setHeaderWord k w).byte b = m.byte b := by
    rw [Memory.setHeaderWord, Memory.byte_set, if_neg, Memory.byte_set, if_neg]
    · rintro rfl
      exact hb hk.1
    · rintro rfl
      exact hb hk.2
  unfold Published at byte word
  by_cases early : version ≤ 3 <;> by_cases small : version < 5 <;>
    simp (disch := decide) only [publish, Memory.setFlags1, Memory.setFlags2, early, small, ↓reduceIte, byte, word]

variable {η : Type} [Host η]

theorem boot_bytes {image : Array UInt8} {host : η} {s : Machine η} {b : Nat} (h : boot image host = .ok s)
    (hb : ¬ Published b) : s.core.memory.bytes[b]? = image[b]? := by
  obtain ⟨m, hm, h⟩ := ok_of_bind_except h
  obtain ⟨c, hc, h⟩ := ok_of_bind_except h
  obtain ⟨f, -, hc⟩ := ok_of_bind_except hc
  cases h
  cases hc
  have hsame := (publish_within m.version (Host.capabilities host) m).byte b hb
  rw [← Memory.load_bytes hm]
  apply Option.ext
  intro v
  rw [← Memory.byte_eq_ok_iff, ← Memory.byte_eq_ok_iff, ← hsame]
  exact Iff.rfl

theorem boot_image {d : Story.Draft} {host : η} {s : Machine η} {b : Nat} (h : boot d.finish host = .ok s)
    (hb : ¬ Published b) (hb' : b < 0x1A ∨ 0x1E ≤ b) : s.core.memory.bytes[b]? = d.image[b]? :=
  (boot_bytes h hb).trans (Story.Draft.getElem?_finish hb')

end Machine

end ZMachine
