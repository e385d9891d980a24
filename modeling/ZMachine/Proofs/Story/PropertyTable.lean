import Mathlib.Data.List.Perm.Subperm
import ZMachine.Proofs.Machine.CallBinding
import ZMachine.Proofs.Object.PropertyData
import ZMachine.Proofs.Text.Extent

namespace ZMachine

open Story

theorem toNat_ofNat_or {n : Nat} {b : UInt8} (i k : Nat) (hn : n = 2 ^ i * k) (hlt : n < 256)
    (hb : b.toNat < 2 ^ i) : (UInt8.ofNat n ||| b).toNat = n + b.toNat := by
  rw [UInt8.toNat_or, UInt8.toNat_ofNat_of_lt' hlt, hn, Nat.two_pow_add_eq_or_of_lt hb]

theorem ofNat_eq_of_toNat {n : Nat} {b : UInt8} (h : n = b.toNat) : UInt8.ofNat n = b := by
  rw [h, UInt8.ofNat_toNat]

structure Story.PropertyFits (version : UInt8) (p : PropertyData) : Prop where
  number : 1 ≤ p.1.toNat ∧ p.1.toNat ≤ if version ≤ 3 then 31 else 63
  size : 1 ≤ p.2.length ∧ p.2.length ≤ if version ≤ 3 then 8 else 64

def Story.nameWords (name : String) : List UInt16 :=
  if name.isEmpty then [] else encodeString .standard name.toList

theorem Story.propertyTable_eq (version : UInt8) (name : String) (properties : List PropertyData) :
    propertyTable version name properties =
      [UInt8.ofNat (nameWords name).length] ++ ((nameWords name).flatMap bytesOf ++
        ((properties.mergeSort fun p q => decide (q.1 ≤ p.1)).flatMap
          (fun p => recordHeader version p.1 p.2.length ++ p.2) ++ [0])) := by
  simp [propertyTable, nameWords]

theorem Story.length_nameWords (name : String) :
    (nameWords name).length ≤ (encodeString .standard name.toList).length := by
  unfold nameWords
  split
  · exact Nat.zero_le _
  · exact Nat.le_refl _

theorem Story.length_propertyTable (version : UInt8) (name : String) (properties : List PropertyData) :
    (propertyTable version name properties).length =
      2 * (nameWords name).length +
        (properties.flatMap fun p => recordHeader version p.1 p.2.length ++ p.2).length + 2 := by
  have hperm := List.mergeSort_perm properties fun p q => decide (q.1 ≤ p.1)
  rw [propertyTable_eq, List.length_append, List.length_append, List.length_append, length_flatMap_bytesOf,
    (hperm.flatMap_right _).length_eq, List.length_singleton, List.length_singleton]
  omega

theorem Story.sorted_falls {ps : List PropertyData} (h : (ps.map Prod.fst).Nodup) :
    (ps.mergeSort fun p q => decide (q.1 ≤ p.1)).Pairwise fun p q => q.1 < p.1 := by
  have hperm := List.mergeSort_perm ps fun p q => decide (q.1 ≤ p.1)
  have hfalls : (ps.mergeSort fun p q => decide (q.1 ≤ p.1)).Pairwise
      fun p q => decide (q.1 ≤ p.1) = true := by
    apply List.pairwise_mergeSort
    · intro p q r hpq hqr
      simp only [decide_eq_true_eq] at hpq hqr ⊢
      exact UInt8.le_trans hqr hpq
    · intro p q
      simpa using UInt8.le_total q.1 p.1
  have hdistinct := List.pairwise_map.1 ((hperm.map Prod.fst).nodup_iff.2 h)
  apply (hfalls.and hdistinct).imp
  rintro p q ⟨hle, hne⟩
  exact UInt8.lt_of_le_of_ne (of_decide_eq_true hle) (Ne.symm hne)

namespace ObjectTable

variable {t : ObjectTable} {m : Memory} {a size : Nat} {number : UInt8} {obj : UInt16} {name : String}
  {p : PropertyData} {ps : List PropertyData}

/-- The header of a record at `a` is read as the number and the size that it was made of, and so is the size
from the byte before the data. -/
def HeaderReads (t : ObjectTable) (m : Memory) (a : Nat) (number : UInt8) (size : Nat) : Prop :=
  let data := a + (recordHeader t.version number size).length
  t.record? m a = .ok (some ⟨number, size, data⟩) ∧ t.propertyLength m data = .ok size

theorem headerReads_early (hv : t.version ≤ 3) (hnumber : 1 ≤ number.toNat ∧ number.toNat ≤ 31)
    (hsize : 1 ≤ size ∧ size ≤ 8) (h : m.Shows a (recordHeader t.version number size)) :
    t.HeaderReads m a number size := by
  have hheader : recordHeader t.version number size = [UInt8.ofNat ((size - 1) * 32) ||| number] := by
    simp [recordHeader, isEarly, hv]
  have hfirst := toNat_ofNat_or (n := (size - 1) * 32) (b := number) 5 (size - 1) (by omega)
    (by omega) (by omega)
  rw [HeaderReads, hheader]
  rw [hheader] at h
  generalize UInt8.ofNat ((size - 1) * 32) ||| number = first at h hfirst
  have hne : first ≠ 0 := by
    rintro rfl
    have hzero : (0 : UInt8).toNat = 0 := rfl
    omega
  have hlength : first.toNat / 32 + 1 = size := by omega
  have hnum : UInt8.ofNat (first.toNat % 32) = number := ofNat_eq_of_toNat (by omega)
  constructor
  · rw [record?_early hv h.1 hne, hnum, hlength]
    rfl
  · change t.propertyLength m (a + 1) = _
    rw [propertyLength_succ h.1, if_pos hv, hlength]

theorem headerReads_short (hv : ¬ t.version ≤ 3) (hnumber : 1 ≤ number.toNat ∧ number.toNat ≤ 63)
    (hsize : size = 1 ∨ size = 2) (h : m.Shows a (recordHeader t.version number size)) :
    t.HeaderReads m a number size := by
  obtain ⟨first, hheader, hfirst⟩ : ∃ first, recordHeader t.version number size = [first] ∧
      first.toNat = (size - 1) * 64 + number.toNat := by
    obtain rfl | rfl := hsize
    · refine ⟨number, by simp [recordHeader, isEarly, hv], by omega⟩
    · refine ⟨number ||| 0x40, by simp [recordHeader, isEarly, hv], ?_⟩
      rw [UInt8.or_comm]
      exact toNat_ofNat_or 6 1 rfl (by decide) (by omega)
  rw [HeaderReads, hheader]
  rw [hheader] at h
  have hne : first ≠ 0 := by
    rintro rfl
    have hzero : (0 : UInt8).toNat = 0 := rfl
    omega
  have hshort : ¬ 128 ≤ first := by
    simp only [UInt8.le_iff_toNat_le, UInt8.reduceToNat]
    omega
  have hlength : (if 64 ≤ first then 2 else 1) = size := by
    simp only [UInt8.le_iff_toNat_le, UInt8.reduceToNat]
    split <;> omega
  have hnum : UInt8.ofNat (first.toNat % 64) = number := ofNat_eq_of_toNat (by omega)
  constructor
  · rw [record?_short hv h.1 hne hshort, hnum, hlength]
    rfl
  · change t.propertyLength m (a + 1) = _
    rw [propertyLength_succ h.1, if_neg hv, if_neg hshort, hlength]

theorem headerReads_long (hv : ¬ t.version ≤ 3) (hnumber : number.toNat ≤ 63)
    (hsize : 3 ≤ size ∧ size ≤ 64) (h : m.Shows a (recordHeader t.version number size)) :
    t.HeaderReads m a number size := by
  have hheader : recordHeader t.version number size =
      [number ||| 0x80, UInt8.ofNat (0x80 + size % 64)] := by
    simp only [recordHeader, isEarly, hv, decide_false, Bool.false_eq_true, ↓reduceIte]
    rw [if_neg (by omega), if_neg (by omega)]
  have hfirst : (number ||| 0x80).toNat = 128 + number.toNat := by
    rw [UInt8.or_comm]
    exact toNat_ofNat_or 7 1 rfl (by decide) (by omega)
  have hsecond : (UInt8.ofNat (0x80 + size % 64)).toNat = 128 + size % 64 :=
    UInt8.toNat_ofNat_of_lt' (show 0x80 + size % 64 < 256 by omega)
  rw [HeaderReads, hheader]
  rw [hheader] at h
  generalize number ||| 0x80 = first at h hfirst
  generalize UInt8.ofNat (0x80 + size % 64) = second at h hsecond
  obtain ⟨hbyte, hnext, -⟩ := h
  have hlong : 128 ≤ first := by
    simp only [UInt8.le_iff_toNat_le, UInt8.reduceToNat]
    omega
  have hmark : 128 ≤ second := by
    simp only [UInt8.le_iff_toNat_le, UInt8.reduceToNat]
    omega
  -- a size of 64 is written as 0
  have hlength : longSize second = size := by
    unfold longSize
    split <;> omega
  have hnum : UInt8.ofNat (first.toNat % 64) = number := ofNat_eq_of_toNat (by omega)
  constructor
  · rw [record?_long hv hbyte hlong hnext, hnum, hlength]
    rfl
  · change t.propertyLength m (a + 1 + 1) = _
    rw [propertyLength_succ hnext, if_neg hv, if_pos hmark, hlength]

theorem headerReads_of_fits (hp : PropertyFits t.version p)
    (h : m.Shows a (recordHeader t.version p.1 p.2.length)) : t.HeaderReads m a p.1 p.2.length := by
  obtain ⟨hnumber, hsize⟩ := hp
  by_cases hv : t.version ≤ 3
  · rw [if_pos hv] at hnumber hsize
    exact headerReads_early hv hnumber hsize h
  · rw [if_neg hv] at hnumber hsize
    by_cases hshort : p.2.length ≤ 2
    · exact headerReads_short hv hnumber (by omega) h
    · exact headerReads_long hv hnumber.2 (by omega) h

structure RecordHolds (t : ObjectTable) (m : Memory) (r : PropertyRecord) (p : PropertyData) : Prop where
  number : r.number = p.1
  size : r.size = p.2.length
  data : m.slice r.data r.size = .ok p.2
  length : t.propertyLength m r.data = .ok r.size

theorem lists_of_shows (hps : ∀ p ∈ ps, PropertyFits t.version p)
    (h : m.Shows a (ps.flatMap (fun p => recordHeader t.version p.1 p.2.length ++ p.2) ++ [0]))
    (ha : a ≤ m.bytes.size) : ∃ rs, t.Lists m a rs ∧ List.Forall₂ (t.RecordHolds m) rs ps := by
  induction ps generalizing a with
  | nil =>
    refine ⟨[], ?_, .nil⟩
    change t.record? m a = .ok none
    rw [record?, h.1]
    rfl
  | cons p ps ih =>
    rw [List.flatMap_cons, List.append_assoc, List.append_assoc, Memory.shows_append,
      Memory.shows_append] at h
    obtain ⟨hheader, hdata, hrest⟩ := h
    obtain ⟨hrecord, hlength⟩ := headerReads_of_fits (hps p List.mem_cons_self) hheader
    have hinside := hheader.le_size ha
    obtain ⟨rs, hlists, hholds⟩ :=
      ih (fun q hq => hps q (List.mem_cons_of_mem p hq)) hrest (hdata.le_size hinside)
    refine ⟨_ :: rs, ⟨hrecord, hlists⟩, .cons ⟨rfl, rfl, ?_, hlength⟩ hholds⟩
    exact Memory.slice_of_shows hdata hinside

theorem numbers_of_holds {rs : List PropertyRecord} (h : List.Forall₂ (t.RecordHolds m) rs ps) :
    rs.map PropertyRecord.number = ps.map Prod.fst := by
  induction h with
  | nil => rfl
  | cons hr _ ih => rw [List.map_cons, List.map_cons, hr.number, ih]

theorem length_le_of_fits (hps : ∀ p ∈ ps, PropertyFits t.version p) (h : (ps.map Prod.fst).Nodup) :
    ps.length ≤ 64 := by
  have hsub : (ps.map Prod.fst).map UInt8.toNat ⊆ List.range 64 := by
    intro k hk
    obtain ⟨x, hx, rfl⟩ := List.mem_map.1 hk
    obtain ⟨p, hp, rfl⟩ := List.mem_map.1 hx
    have hnumber := (hps p hp).number.2
    rw [List.mem_range]
    split at hnumber <;> omega
  have hdistinct : ((ps.map Prod.fst).map UInt8.toNat).Nodup :=
    List.Pairwise.map _ (fun _ _ hne heq => hne (UInt8.toNat_inj.1 heq)) h
  have hlength := (List.subperm_of_subset hdistinct hsub).length_le
  rwa [List.length_map, List.length_map, List.length_range] at hlength

section Table

variable (htable : t.propertyTable m obj = .ok a) (h : m.Shows a (Story.propertyTable t.version name ps))
  (hname : (encodeString .standard name.toList).length ≤ 255)

include htable h hname

theorem firstRecord_of_shows : t.firstRecord m obj = .ok (a + 1 + 2 * (nameWords name).length) := by
  rw [propertyTable_eq, Memory.shows_append] at h
  have hwords := length_nameWords name
  have hcount : (UInt8.ofNat (nameWords name).length).toNat = (nameWords name).length :=
    UInt8.toNat_ofNat_of_lt' (show _ < 256 by omega)
  rw [firstRecord, htable]
  simp only [bind, Except.bind, h.1.1, hcount, Nat.mul_comm 2]
  rfl

theorem properties_of_shows (ha : a ≤ m.bytes.size) (hps : ∀ p ∈ ps, PropertyFits t.version p)
    (hdistinct : (ps.map Prod.fst).Nodup) :
    ∃ rs listed, t.properties m obj = .ok rs ∧ listed.Perm ps ∧ listed.Pairwise (fun p q => q.1 < p.1) ∧
      List.Forall₂ (t.RecordHolds m) rs listed := by
  have hfirst := firstRecord_of_shows htable h hname
  have hfalls := sorted_falls hdistinct
  have hperm := List.mergeSort_perm ps fun p q => decide (q.1 ≤ p.1)
  rw [propertyTable_eq, Memory.shows_append, Memory.shows_append, length_flatMap_bytesOf] at h
  obtain ⟨hcount, hwords, hrecords⟩ := h
  have hcount' := hcount.le_size ha
  have hwords' := hwords.le_size hcount'
  rw [length_flatMap_bytesOf] at hwords'
  generalize ps.mergeSort (fun p q => decide (q.1 ≤ p.1)) = listed at hfalls hperm hrecords
  obtain ⟨rs, hlists, hholds⟩ := lists_of_shows (fun p hp => hps p (hperm.mem_iff.1 hp)) hrecords hwords'
  refine ⟨rs, listed, properties_iff.2 ⟨_, hfirst, hlists, ?_, ?_⟩, hperm, hfalls, hholds⟩
  · have hnumbers : (rs.map PropertyRecord.number).Pairwise fun x y => y < x := by
      rw [numbers_of_holds hholds]
      exact List.pairwise_map.2 hfalls
    exact List.pairwise_map.1 hnumbers
  · rw [hholds.length_eq, hperm.length_eq]
    exact length_le_of_fits hps hdistinct

theorem shortName_of_shows (hA : Alphabets.ofMemory m = .ok .standard) :
    (name = "" → t.shortName? m obj = .ok none) ∧
      (name ≠ "" → ∃ b, t.shortName? m obj = .ok (some b) ∧ m.text b = .ok (Zscii.readable name.toList)) := by
  rw [propertyTable_eq, Memory.shows_append, Memory.shows_append] at h
  obtain ⟨⟨hcount, -⟩, hwords, -⟩ := h
  constructor
  · rintro rfl
    rw [shortName?, htable]
    simp only [bind, Except.bind, hcount]
    rfl
  · intro hne
    have heq : nameWords name = encodeString .standard name.toList := by
      rw [nameWords, if_neg]
      simpa using hne
    rw [heq] at hcount hwords
    have hterminated := encodeString_terminated .standard name.toList
    have hsome : UInt8.ofNat (encodeString .standard name.toList).length ≠ 0 := by
      have hpos := List.length_pos_iff.2 hterminated.ne_nil
      intro hzero
      have hnat := congrArg UInt8.toNat hzero
      rw [UInt8.toNat_ofNat_of_lt' (show _ < 256 by omega)] at hnat
      exact absurd hnat (Nat.ne_of_gt hpos)
    refine ⟨a + 1, ?_, ?_⟩
    · rw [shortName?, htable]
      simp only [bind, Except.bind, hcount, hsome, ↓reduceIte]
      rfl
    · have hstring : m.stringWords (a + 1) = .ok (encodeString .standard name.toList) :=
        (Memory.stores_of_shows hwords).stringWordsFrom hterminated (Nat.le_trans hname (by decide))
      rw [Memory.text, hA]
      change m.spellAt .standard (a + 1) (.ok (m.abbreviation .standard)) = _
      rw [Memory.spellAt, hstring]
      exact spell_encodeString (Alphabets.char_newline hA) _

end Table

end ObjectTable

end ZMachine
