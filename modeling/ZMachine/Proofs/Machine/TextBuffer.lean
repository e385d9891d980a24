import Mathlib.Data.List.DropRight
import ZMachine.Execute.Reading
import ZMachine.Proofs.Instruction.Encoding
import ZMachine.Proofs.Text.RoundTrip

namespace ZMachine

namespace Memory

variable {m n : Memory} {a : Nat} {bytes : List UInt8}

theorem shows_iff : m.Shows a bytes ↔ ∀ i b, bytes[i]? = some b → m.byte (a + i) = .ok b := by
  induction bytes generalizing a with
  | nil => simp [Shows]
  | cons x rest ih =>
    rw [Shows, ih]
    constructor
    · rintro ⟨hx, hrest⟩ i b hb
      cases i with
      | zero =>
        cases hb
        exact hx
      | succ i =>
        rw [Nat.add_comm i, ← Nat.add_assoc]
        exact hrest i b hb
    · intro h
      refine ⟨h 0 x rfl, fun i b hb => ?_⟩
      rw [Nat.add_assoc, Nat.add_comm 1]
      exact h (i + 1) b hb

theorem Shows.congr (h : m.Shows a bytes)
    (same : ∀ b, a ≤ b → b < a + bytes.length → n.byte b = m.byte b) : n.Shows a bytes := by
  rw [shows_iff] at h ⊢
  intro i b hb
  have hi : i < bytes.length := List.getElem?_eq_some_iff.1 hb |>.1
  rw [same _ (by omega) (by omega)]
  exact h i b hb

theorem shows_of_toList (before after : List UInt8) (h : m.bytes.toList = before ++ (bytes ++ after)) :
    m.Shows before.length bytes := by
  rw [shows_iff]
  intro i b hb
  obtain ⟨hi, rfl⟩ := List.getElem?_eq_some_iff.1 hb
  have hget : m.bytes.toList[before.length + i]? = some bytes[i] := by
    rw [h, List.getElem?_append_right (by omega), Nat.add_sub_cancel_left,
      List.getElem?_append_left hi, hb]
  obtain ⟨hlt, heq⟩ := List.getElem?_eq_some_iff.1 hget
  rw [byte, dif_pos (by simpa using hlt), ← heq, Array.getElem_toList]

theorem setBytes_ok (h : a + bytes.length ≤ m.bytes.size) :
    ∃ n, setBytes a bytes m = .ok () n ∧ ChangesAt a bytes.length m n ∧ n.Shows a bytes := by
  induction bytes generalizing m a with
  | nil => exact ⟨m, rfl, ⟨rfl, fun _ _ => rfl⟩, trivial⟩
  | cons b rest ih =>
    rw [List.length_cons] at h
    obtain ⟨m₁, hset, hc₁, hb⟩ := setByte_ok (m := m) (a := a) b (by omega)
    have room : a + 1 + rest.length ≤ m₁.bytes.size := by
      rw [hc₁.size]
      omega
    obtain ⟨n, hrest, hc₂, hshows⟩ := ih room
    refine ⟨n, ?_, ⟨hc₂.size.trans hc₁.size, ?_⟩, ?_, hshows⟩
    · rw [setBytes, bind_ok _ hset, hrest]
    · intro b' hout
      rw [List.length_cons] at hout
      rw [hc₂.byte b' (by omega), hc₁.byte b' (by omega)]
    · rw [hc₂.byte a (by omega), hb]

theorem Shows.unique {bytes' : List UInt8} (h : m.Shows a bytes) (h' : m.Shows a bytes')
    (hlen : bytes.length = bytes'.length) : bytes = bytes' := by
  rw [shows_iff] at h h'
  apply List.ext_getElem hlen
  intro i hi hi'
  have hbyte := h i _ (List.getElem?_eq_getElem hi)
  rw [h' i _ (List.getElem?_eq_getElem hi')] at hbyte
  exact (Except.ok.inj hbyte).symm

theorem slice_of_le {k : Nat} (h : a + k ≤ m.bytes.size) :
    ∃ bytes, m.slice a k = .ok bytes ∧ bytes.length = k ∧ m.Shows a bytes := by
  refine ⟨_, by rw [slice, block, dif_pos h]; rfl, Vector.length_toList, ?_⟩
  rw [shows_iff]
  intro i b hb
  obtain ⟨hi, rfl⟩ := List.getElem?_eq_some_iff.1 hb
  rw [Vector.length_toList] at hi
  rw [byte, dif_pos (by omega)]
  simp

theorem shows_of_slice {k : Nat} (h : m.slice a k = .ok bytes) : m.Shows a bytes := by
  by_cases inside : a + k ≤ m.bytes.size
  · obtain ⟨bytes', hslice, -, hshows⟩ := slice_of_le inside
    cases hslice.symm.trans h
    exact hshows
  · rw [slice, block, dif_neg inside] at h
    cases h

theorem Shows.le_size (h : m.Shows a bytes) (ha : a ≤ m.bytes.size) :
    a + bytes.length ≤ m.bytes.size := by
  induction bytes generalizing a with
  | nil => exact ha
  | cons b rest ih =>
    have hrest := ih h.2 (byte_inside h.1)
    rw [List.length_cons]
    omega

theorem slice_of_shows (h : m.Shows a bytes) (ha : a ≤ m.bytes.size) :
    m.slice a bytes.length = .ok bytes := by
  obtain ⟨bytes', hslice, hlen, hshows⟩ := slice_of_le (h.le_size ha)
  rw [hslice, h.unique hshows hlen.symm]

end Memory

def typedCode? (c : Char) : Option UInt8 :=
  if c = '\n' ∨ c = '\r' then none else (Zscii.ofChar? c).map UInt16.toUInt8

/-- The codes of a line in lower case, without the line ends at its end and without the characters
that have none. -/
def typedCodes (line : String) : List UInt8 :=
  ((line.toList.rdropWhile fun c => c = '\n' ∨ c = '\r').flatMap lowerCase).filterMap typedCode?

theorem typedCode?_eq (c : Char) :
    typedCode? c = ((Zscii.ofChar? c).filter (· ≠ Zscii.newline)).map UInt16.toUInt8 := by
  have newline : Zscii.newline.toNat = 13 := rfl
  rw [typedCode?]
  split
  · next hline =>
    rw [Zscii.ofChar?, if_pos hline]
    rfl
  · next hline =>
    cases h : Zscii.ofChar? c with
    | none => rfl
    | some code =>
      have hne : code ≠ Zscii.newline := by
        rintro rfl
        obtain ⟨hc, -⟩ | ⟨-, ⟨hlow, -, hcode⟩ | ⟨i, -, -, hcode⟩⟩ := Zscii.ofChar?_cases h
        · exact hline hc
        · omega
        · omega
      rw [Option.filter_some, if_pos (by simpa using hne)]

theorem typedCode?_ne_zero {c : Char} {b : UInt8} (h : typedCode? c = some b) : b ≠ 0 := by
  rw [typedCode?] at h
  split at h
  · cases h
  · obtain ⟨code, hcode, rfl⟩ := Option.map_eq_some_iff.1 h
    rw [← UInt8.toNat_inj.ne, UInt16.toNat_toUInt8, UInt8.toNat_zero]
    obtain ⟨-, h⟩ | ⟨-, ⟨hlow, hhigh, h⟩ | ⟨i, hi, -, h⟩⟩ := Zscii.ofChar?_cases hcode <;> omega

theorem lineCodes_eq_typedCodes (line : String) : Machine.lineCodes line = typedCodes line := by
  rw [Machine.lineCodes, typedCodes, trimLineEnd, String.toList_ofList, List.filter_filterMap,
    List.map_filterMap]
  apply List.filterMap_congr
  intro c _
  rw [typedCode?_eq]

namespace Machine

open Memory (ChangesAt ChangesWithin)

/-- How a text stands in a buffer, behind the capacity: ended by a zero, or after its length. -/
def textLayout (version : UInt8) (text : List UInt8) : List UInt8 :=
  if version ≤ 4 then text ++ [0] else UInt8.ofNat text.length :: text

def bufferEnd (version capacity : UInt8) : Nat :=
  if version ≤ 4 then max capacity.toNat 1 else capacity.toNat + 1

section TextBuffer

variable {version c : UInt8} {b : Nat} {m : Memory} {text : List UInt8}

theorem textStart_terminated (hv : version ≤ 4) : textStart version = 1 := if_pos hv

theorem textStart_counted (hv : ¬ version ≤ 4) : textStart version = 2 := if_neg hv

theorem storeLine_ok {line : String} (hc : m.byte b = .ok c)
    (htext : (typedCodes line).take (textLimit version c) = text)
    (room : b + 1 + text.length < m.bytes.size) :
    ∃ n, storeLine version b line m = .ok () n ∧ ChangesAt (b + 1) (text.length + 1) m n ∧
      n.Shows (b + 1) (textLayout version text) := by
  rw [storeLine, bind_ok _ (reading_ok (f := (Memory.byte · b)) hc), lineCodes_eq_typedCodes, htext, textLayout]
  by_cases hv : version ≤ 4
  · rw [textStart_terminated hv, if_pos hv, if_pos hv]
    have hroom : b + 1 + text.length ≤ m.bytes.size := by omega
    obtain ⟨m₁, hset, hc₁, hshows⟩ := Memory.setBytes_ok hroom
    have hsize : m₁.bytes.size = m.bytes.size := hc₁.size
    obtain ⟨n, hset₂, hc₂, hzero⟩ := Memory.setByte_ok (m := m₁) (a := b + 1 + text.length) 0 (by omega)
    refine ⟨n, ?_, ⟨hc₂.size.trans hc₁.size, fun x hx => ?_⟩, ?_⟩
    · rw [bind_ok _ hset, hset₂]
    · rw [hc₂.byte x (by omega), hc₁.byte x (by omega)]
    · refine Memory.shows_append.2 ⟨?_, hzero, trivial⟩
      exact hshows.congr fun x _ hx => hc₂.byte x (by omega)
  · rw [textStart_counted hv, if_neg hv, if_neg hv]
    have hroom : b + 2 + text.length ≤ m.bytes.size := by omega
    obtain ⟨m₁, hset, hc₁, hshows⟩ := Memory.setBytes_ok hroom
    have hsize : m₁.bytes.size = m.bytes.size := hc₁.size
    obtain ⟨n, hset₂, hc₂, hcount⟩ := Memory.setByte_ok (m := m₁) (a := b + 1)
      (UInt8.ofNat text.length) (by omega)
    refine ⟨n, ?_, ⟨hc₂.size.trans hc₁.size, fun x hx => ?_⟩, hcount, ?_⟩
    · rw [bind_ok _ hset, hset₂]
    · rw [hc₂.byte x (by omega), hc₁.byte x (by omega)]
    · exact hshows.congr fun x hx _ => hc₂.byte x (by omega)

theorem bytesUpToZero_of_shows {a k : Nat} (h : m.Shows a (text ++ [0])) (hz : ∀ x ∈ text, x ≠ 0)
    (hk : text.length ≤ k) : bytesUpToZero m a k = .ok text := by
  induction text generalizing a k with
  | nil =>
    cases k with
    | zero => rfl
    | succ k =>
      rw [bytesUpToZero, h.1]
      rfl
  | cons x rest ih =>
    cases k with
    | zero => simp at hk
    | succ k =>
      obtain ⟨hx, hrest⟩ := List.forall_mem_cons.1 hz
      have htext := ih h.2 hrest (Nat.le_of_succ_le_succ hk)
      rw [bytesUpToZero, h.1, htext]
      exact if_neg hx

theorem shows_of_bytesUpToZero {a k : Nat} (h : bytesUpToZero m a k = .ok text) : m.Shows a text := by
  induction k generalizing a text with
  | zero =>
    cases h
    trivial
  | succ k ih =>
    obtain ⟨x, hx, h⟩ := ok_of_bind_except h
    split at h
    · cases h
      trivial
    · obtain ⟨rest, hrest, h⟩ := ok_of_bind_except h
      cases h
      exact ⟨hx, ih hrest⟩

theorem shows_of_bufferText (h : bufferText version m b = .ok text) :
    m.Shows (b + textStart version) text := by
  rw [bufferText] at h
  split at h
  · obtain ⟨k, -, h⟩ := ok_of_bind_except h
    exact shows_of_bytesUpToZero h
  · obtain ⟨k, -, h⟩ := ok_of_bind_except h
    exact Memory.shows_of_slice h

theorem bufferText_of_shows (hc : m.byte b = .ok c) (h : m.Shows (b + 1) (textLayout version text))
    (hz : ∀ x ∈ text, x ≠ 0) (hlen : text.length ≤ c.toNat) : bufferText version m b = .ok text := by
  rw [textLayout] at h
  rw [bufferText]
  by_cases hv : version ≤ 4
  · rw [if_pos hv] at h
    rw [textStart_terminated hv, if_pos hv, hc]
    exact bytesUpToZero_of_shows h hz hlen
  · rw [if_neg hv] at h
    obtain ⟨hcount, htext⟩ := h
    have hslice := Memory.slice_of_shows htext (Memory.byte_inside hcount)
    rw [textStart_counted hv, if_neg hv, hcount]
    change m.slice (b + 2) (UInt8.ofNat text.length).toNat = _
    rw [UInt8.toNat_ofNat_of_lt' (Nat.lt_of_le_of_lt hlen c.toNat_lt), hslice]

theorem typedCodes_ne_zero {line : String} : ∀ x ∈ typedCodes line, x ≠ 0 := by
  intro x hx
  obtain ⟨ch, -, hch⟩ := List.mem_filterMap.1 hx
  exact typedCode?_ne_zero hch

theorem storeLine_reads_back {version c : UInt8} {b : Nat} {m : Memory} (line : String)
    (hc : m.byte b = .ok c) (room : b + bufferEnd version c < m.size) :
    ∃ n, storeLine version b line m = .ok () n ∧
      ChangesWithin (fun x => b + 1 ≤ x ∧ x ≤ b + bufferEnd version c) m n ∧ n.byte b = .ok c ∧
      bufferText version n b =
        .ok ((typedCodes line).take (if version ≤ 4 then c.toNat - 1 else c.toNat)) := by
  change ∃ n, _ ∧ _ ∧ _ ∧ bufferText version n b = .ok ((typedCodes line).take (textLimit version c))
  generalize htext : (typedCodes line).take (textLimit version c) = text
  have hlimit : text.length ≤ textLimit version c := by
    rw [← htext]
    exact List.length_take_le ..
  -- one place more than the text has bytes: the zero behind it, or the length in front
  have hend : text.length + 1 ≤ bufferEnd version c ∧ text.length ≤ c.toNat := by
    rw [textLimit] at hlimit
    rw [bufferEnd]
    by_cases hv : version ≤ 4
    · rw [if_pos hv] at hlimit ⊢
      omega
    · rw [if_neg hv] at hlimit ⊢
      omega
  have hroom : b + 1 + text.length < m.bytes.size := by
    rw [Memory.size] at room
    omega
  obtain ⟨n, hstore, hchanges, hshows⟩ := storeLine_ok hc htext hroom
  have hc' : n.byte b = .ok c := by rw [hchanges.byte b (by omega), hc]
  refine ⟨n, hstore, hchanges.within fun x hx hx' => ⟨hx, by omega⟩, hc', ?_⟩
  apply bufferText_of_shows hc' hshows _ hend.2
  intro x hx
  rw [← htext] at hx
  exact typedCodes_ne_zero x (List.mem_of_mem_take hx)

end TextBuffer

def blankBuffer (capacity : UInt8) : Memory :=
  ⟨⟨List.replicate 64 0 ++ capacity :: List.replicate 15 0⟩, by simp, by simp⟩

theorem storeLine_reads_back_clipped :
    (blankBuffer 4).byte 64 = .ok 4 ∧
      ∃ n, storeLine 3 64 "A\rBÄ日CD\r\n" (blankBuffer 4) = .ok () n ∧
        ChangesWithin (fun x => 65 ≤ x ∧ x ≤ 68) (blankBuffer 4) n ∧ n.byte 64 = .ok 4 ∧
        bufferText 3 n 64 = .ok [97, 98, 155] := by
  have hc : (blankBuffer 4).byte 64 = .ok 4 := rfl
  have htext : (typedCodes "A\rBÄ日CD\r\n").take 3 = [97, 98, 155] := by decide +kernel
  obtain ⟨n, hstore, hchanges, hcapacity, hread⟩ := @storeLine_reads_back 3 _ _ _ "A\rBÄ日CD\r\n" hc
    (by decide +kernel)
  exact ⟨hc, n, hstore, hchanges, hcapacity, htext ▸ hread⟩

end Machine

end ZMachine
