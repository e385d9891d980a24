import ZMachine.Proofs.Machine.TextBuffer

namespace ZMachine

theorem Memory.ChangesAt.unique {m n n' : Memory} {a width : Nat} (h : ChangesAt a width m n)
    (h' : ChangesAt a width m n') (same : ∀ i < width, n.byte (a + i) = n'.byte (a + i)) : n = n' := by
  apply eq_of_bytes
  · exact h.size.trans h'.size.symm
  · intro x
    by_cases hin : a ≤ x ∧ x < a + width
    · obtain ⟨i, rfl⟩ := Nat.exists_eq_add_of_le hin.1
      apply same
      omega
    · rw [h.byte x (by omega), h'.byte x (by omega)]

namespace Machine

open Memory (ChangesAt)

variable {m m₁ : Memory} {a n i source dest first second : Nat} {size : Int}

theorem clearBytes_eq (a n : Nat) : clearBytes a n = Memory.setBytes a (List.replicate n 0) := by
  induction n generalizing a with
  | zero => rfl
  | succ n ih => rw [clearBytes, List.replicate_succ, Memory.setBytes, ih]

theorem clearBytes_ok (h : a + n ≤ m.bytes.size) :
    ∃ m', clearBytes a n m = .ok () m' ∧ ChangesAt a n m m' ∧ ∀ i < n, m'.byte (a + i) = .ok 0 := by
  have hroom : a + (List.replicate n (0 : UInt8)).length ≤ m.bytes.size := by simpa using h
  obtain ⟨m', hset, hchanges, hshows⟩ := Memory.setBytes_ok hroom
  rw [List.length_replicate] at hchanges
  refine ⟨m', ?_, hchanges, fun i hi => ?_⟩
  · rw [clearBytes_eq, hset]
  · apply Memory.shows_iff.1 hshows
    simp [hi]

/-- The byte that ends up at place `i` of a forward copy. -/
def origin (source dest i : Nat) : Nat :=
  if source < dest then source + i % (dest - source) else source + i

theorem origin_zero (source dest : Nat) : origin source dest 0 = source := by simp [origin]

theorem byte_origin_succ (h : ChangesAt dest 1 m m₁) (hbyte : m₁.byte dest = m.byte source) (i : Nat) :
    m₁.byte (origin (source + 1) (dest + 1) i) = m.byte (origin source dest (i + 1)) := by
  -- After the first byte the copy is one of what follows, where the byte just written counts for
  -- the one that it came from.
  unfold origin
  by_cases hlt : source < dest
  · rw [if_pos (Nat.succ_lt_succ hlt), if_pos hlt, Nat.add_sub_add_right,
      ← Nat.mod_add_mod i (dest - source) 1]
    have hmod : i % (dest - source) < dest - source := Nat.mod_lt i (by omega)
    by_cases hlast : i % (dest - source) + 1 = dest - source
    · rw [hlast, Nat.mod_self, show source + 1 + i % (dest - source) = dest by omega, hbyte, Nat.add_zero]
    · rw [Nat.mod_eq_of_lt (show i % (dest - source) + 1 < dest - source by omega), h.byte _ (by omega)]
      congr 1
      omega
  · rw [if_neg (by omega), if_neg hlt, h.byte _ (by omega)]
    congr 1
    omega

theorem copyForward_ok (hsource : source + n ≤ m.bytes.size) (hdest : dest + n ≤ m.bytes.size) :
    ∃ m', copyForward source dest n m = .ok () m' ∧ ChangesAt dest n m m' ∧
      ∀ i < n, m'.byte (dest + i) = m.byte (origin source dest i) := by
  induction n generalizing source dest m with
  | zero => exact ⟨m, rfl, ⟨rfl, fun _ _ => rfl⟩, by simp⟩
  | succ n ih =>
    obtain ⟨v, hv⟩ := Memory.byte_of_lt (m := m) (a := source) (by omega)
    obtain ⟨m₁, hset, hc₁, hbyte⟩ := Memory.setByte_ok (m := m) (a := dest) v (by omega)
    have hsize : m₁.bytes.size = m.bytes.size := hc₁.size
    have hsource' : source + 1 + n ≤ m₁.bytes.size := by omega
    have hdest' : dest + 1 + n ≤ m₁.bytes.size := by omega
    obtain ⟨m', hrest, hc₂, hbytes⟩ := ih hsource' hdest'
    refine ⟨m', ?_, ⟨hc₂.size.trans hc₁.size, fun x hx => ?_⟩, fun i hi => ?_⟩
    · rw [copyForward, bind_ok _ (reading_ok (f := (Memory.byte · source)) hv), bind_ok _ hset, hrest]
    · rw [hc₂.byte x (by omega), hc₁.byte x (by omega)]
    · cases i with
      | zero => rw [Nat.add_zero, hc₂.byte dest (by omega), hbyte, origin_zero, hv]
      | succ i =>
        rw [show dest + (i + 1) = dest + 1 + i by omega, hbytes i (by omega)]
        exact byte_origin_succ hc₁ (hbyte.trans hv.symm) i

theorem copyWhole_ok (hsource : source + n ≤ m.bytes.size) (hdest : dest + n ≤ m.bytes.size) :
    ∃ bytes m', m.slice source n = .ok bytes ∧ Memory.setBytes dest bytes m = .ok () m' ∧
      ChangesAt dest n m m' ∧ ∀ i < n, m'.byte (dest + i) = m.byte (source + i) := by
  obtain ⟨bytes, hslice, rfl, hold⟩ := Memory.slice_of_le hsource
  obtain ⟨m', hset, hchanges, hnew⟩ := Memory.setBytes_ok hdest
  refine ⟨bytes, m', hslice, hset, hchanges, fun i hi => ?_⟩
  have hget : bytes[i]? = some bytes[i] := List.getElem?_eq_getElem hi
  rw [Memory.shows_iff.1 hnew i _ hget, Memory.shows_iff.1 hold i _ hget]

/-- The destination starts in the source, but not with it. -/
def StartsInside (first second n : Nat) : Prop := first < second ∧ second < first + n

instance (first second n : Nat) : Decidable (StartsInside first second n) :=
  inferInstanceAs (Decidable (_ ∧ _))

theorem origin_eq (hi : i < n) :
    origin first second i = first + if StartsInside first second n then i % (second - first) else i := by
  unfold origin
  by_cases hlt : first < second
  · rw [if_pos hlt]
    by_cases hin : StartsInside first second n
    · rw [if_pos hin]
    · have hfar : i < second - first := by
        have : ¬ second < first + n := fun h => hin ⟨hlt, h⟩
        omega
      rw [if_neg hin, Nat.mod_eq_of_lt hfar]
  · rw [if_neg hlt, if_neg fun h : StartsInside first second n => hlt h.1]

theorem copyTable_ok (hsecond : second ≠ 0) (hfrom : first + size.natAbs ≤ m.bytes.size)
    (hto : second + size.natAbs ≤ m.bytes.size) :
    ∃ m', copyTable first second size m = .ok () m' ∧ ChangesAt second size.natAbs m m' ∧
      ∀ i < size.natAbs, m'.byte (second + i) =
        m.byte (first + if size < 0 ∧ StartsInside first second size.natAbs then i % (second - first) else i) := by
  by_cases hneg : size < 0
  · obtain ⟨m', hcopy, hchanges, hbytes⟩ := copyForward_ok hfrom hto
    refine ⟨m', ?_, hchanges, fun i hi => ?_⟩
    · rw [copyTable, if_neg hsecond, if_pos hneg, hcopy]
    · simp only [hneg, true_and]
      rw [hbytes i hi, origin_eq hi]
  · obtain ⟨bytes, m', hslice, hset, hchanges, hbytes⟩ := copyWhole_ok hfrom hto
    refine ⟨m', ?_, hchanges, fun i hi => ?_⟩
    · rw [copyTable, if_neg hsecond, if_neg hneg,
        bind_ok _ (reading_ok (f := (Memory.slice · first size.natAbs)) hslice), hset]
    · simp only [hneg, false_and, ↓reduceIte]
      exact hbytes i hi

/-- What a copy of a table leaves at every place. -/
theorem bytes_of_copyTable (m : Memory) (first second : Nat) (size : Int) :
    (second = 0 → first + size.natAbs ≤ m.size →
      ∃ m', copyTable first second size m = .ok () m' ∧ ChangesAt first size.natAbs m m' ∧
        ∀ i < size.natAbs, m'.byte (first + i) = .ok 0) ∧
    (second ≠ 0 → first + size.natAbs ≤ m.size → second + size.natAbs ≤ m.size →
      ∃ m', copyTable first second size m = .ok () m' ∧ ChangesAt second size.natAbs m m' ∧
        (0 ≤ size → ∀ i < size.natAbs, m'.byte (second + i) = m.byte (first + i)) ∧
        (size < 0 → first < second → second < first + size.natAbs →
          ∀ i < size.natAbs, m'.byte (second + i) = m.byte (first + i % (second - first))) ∧
        (¬ (first < second ∧ second < first + size.natAbs) →
          (∀ i < size.natAbs, m'.byte (second + i) = m.byte (first + i)) ∧
          copyTable first second (-size) m = .ok () m')) := by
  refine ⟨fun hsecond hfrom => ?_, fun hsecond hfrom hto => ?_⟩
  · obtain ⟨m', hclear, hchanges, hzero⟩ := clearBytes_ok hfrom
    exact ⟨m', by rw [copyTable, if_pos hsecond, hclear], hchanges, hzero⟩
  · obtain ⟨m', hcopy, hchanges, hbytes⟩ := copyTable_ok hsecond hfrom hto
    refine ⟨m', hcopy, hchanges, fun hpos i hi => ?_, fun hneg hlt hin i hi => ?_, fun hout => ?_⟩
    · rw [hbytes i hi, if_neg fun h => absurd h.1 (Int.not_lt.2 hpos)]
    · rw [hbytes i hi, if_pos ⟨hneg, hlt, hin⟩]
    · have hsame : ∀ i < size.natAbs, m'.byte (second + i) = m.byte (first + i) := fun i hi => by
        rw [hbytes i hi, if_neg fun h => hout h.2]
      refine ⟨hsame, ?_⟩
      -- the other direction is a copy of as many bytes, so both leave the same memory
      have habs : (-size).natAbs = size.natAbs := Int.natAbs_neg size
      rw [← habs] at hfrom hto
      obtain ⟨n', hcopy', hchanges', hbytes'⟩ := copyTable_ok hsecond hfrom hto
      rw [habs] at hchanges' hbytes'
      rw [hcopy']
      congr 1
      apply hchanges'.unique hchanges
      intro i hi
      rw [hbytes' i hi, if_neg fun h => hout h.2, hsame i hi]

def countingStory : Memory :=
  -- The bytes 1 to 5 at 64, and room behind them.
  ⟨⟨List.replicate 64 0 ++ [1, 2, 3, 4, 5] ++ List.replicate 11 0⟩, by simp, by simp⟩

theorem bytes_of_copyTable_counting :
    ∃ m', copyTable 64 66 (-5) countingStory = .ok () m' ∧ ChangesAt 66 5 countingStory m' ∧
      ∀ i < 5, m'.byte (66 + i) = countingStory.byte (64 + i % 2) := by
  obtain ⟨-, hcopies⟩ := bytes_of_copyTable countingStory 64 66 (-5)
  obtain ⟨m', hcopy, hchanges, -, hperiodic, -⟩ := hcopies (by decide) (by decide +kernel)
    (by decide +kernel)
  exact ⟨m', hcopy, hchanges, hperiodic (by decide) (by decide) (by decide)⟩

end Machine

end ZMachine
