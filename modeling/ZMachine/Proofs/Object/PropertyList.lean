import ZMachine.Object.Property
import ZMachine.Proofs.Memory.Access

namespace ZMachine.ObjectTable

variable {t : ObjectTable} {m : Memory} {obj : UInt16} {p : UInt8} {a left : Nat}
  {r : PropertyRecord} {rs : List PropertyRecord}

theorem record?_inside {found : Option PropertyRecord} (h : t.record? m a = .ok found) :
    a < m.bytes.size := by
  obtain ⟨first, hfirst, -⟩ := ok_of_bind_except h
  exact Memory.byte_inside hfirst

theorem record?_some (h : t.record? m a = .ok (some r)) : r.number.toNat < 64 ∧ 0 < r.size := by
  obtain ⟨first, -, h⟩ := ok_of_bind_except h
  split at h
  · cases h
  split at h
  · cases h
    constructor
    · simp only [UInt8.toNat_ofNat']
      omega
    · exact Nat.succ_pos _
  split at h
  · obtain ⟨second, -, h⟩ := ok_of_bind_except h
    cases h
    constructor
    · simp only [UInt8.toNat_ofNat']
      omega
    · simp only [longSize]
      split <;> omega
  · cases h
    constructor
    · simp only [UInt8.toNat_ofNat']
      omega
    · dsimp only
      split <;> omega

/-- Exactly these records stand in memory from `a`, each where the data of the one before it ends,
and a zero byte after the last. -/
def Lists (t : ObjectTable) (m : Memory) : Nat → List PropertyRecord → Prop
  | a, [] => t.record? m a = .ok none
  | a, r :: rest => t.record? m a = .ok (some r) ∧ Lists t m r.next rest

def Falling (rs : List PropertyRecord) : Prop := rs.Pairwise fun r s => s.number < r.number

theorem recordsFrom_cases {previous : Option UInt8}
    (h : t.recordsFrom m obj left previous a = .ok rs) :
    (t.record? m a = .ok none ∧ rs = []) ∨
      ∃ r rest left', left = left' + 1 ∧ t.record? m a = .ok (some r) ∧
        (∀ p ∈ previous, r.number < p) ∧
        t.recordsFrom m obj left' (some r.number) r.next = .ok rest ∧ rs = r :: rest := by
  unfold recordsFrom at h
  obtain ⟨found, hfound, h⟩ := ok_of_bind_except h
  cases found with
  | none =>
    cases h
    exact .inl ⟨hfound, rfl⟩
  | some r =>
    right
    have hbelow : ∀ p ∈ previous, r.number < p := by
      intro p hp
      cases hp
      apply UInt8.not_le.1
      intro hle
      dsimp only at h
      rw [if_pos hle] at h
      cases h
    have hrest : ∃ rest left', left = left' + 1 ∧
        t.recordsFrom m obj left' (some r.number) r.next = .ok rest ∧ rs = r :: rest := by
      cases left with
      | zero =>
        dsimp only at h
        split at h
        · split at h <;> cases h
        · cases h
      | succ left =>
        have h' : (do return r :: (← t.recordsFrom m obj left (some r.number) r.next)) =
            Except.ok rs := by
          cases previous with
          | none => exact h
          | some q =>
            dsimp only at h
            rwa [if_neg (UInt8.not_le.2 (hbelow q rfl))] at h
        obtain ⟨rest, hr, ⟨⟩⟩ := ok_of_bind_except h'
        exact ⟨rest, left, rfl, hr, rfl⟩
    obtain ⟨rest, left', hleft, hr, hrs⟩ := hrest
    exact ⟨r, rest, left', hleft, hfound, hbelow, hr, hrs⟩

theorem recordsFrom_ok {previous : Option UInt8} (h : t.recordsFrom m obj left previous a = .ok rs) :
    t.Lists m a rs ∧ rs.length ≤ left ∧ Falling rs ∧ ∀ p ∈ previous, ∀ r ∈ rs, r.number < p := by
  induction left generalizing previous a rs with
  | zero =>
    obtain ⟨hend, rfl⟩ | ⟨_, _, _, ⟨⟩, -⟩ := recordsFrom_cases h
    exact ⟨hend, Nat.le_refl 0, .nil, by simp⟩
  | succ left ih =>
    obtain ⟨hend, rfl⟩ | ⟨r, rest, _, ⟨⟩, hr, hbelow, hrest, rfl⟩ := recordsFrom_cases h
    · exact ⟨hend, Nat.zero_le _, .nil, by simp⟩
    · obtain ⟨hlists, hlength, hfalling, hnext⟩ := ih hrest
      have hsmaller := hnext r.number rfl
      refine ⟨⟨hr, hlists⟩, Nat.succ_le_succ hlength, List.pairwise_cons.2 ⟨hsmaller, hfalling⟩, ?_⟩
      intro p hp s hs
      obtain rfl | hs := List.mem_cons.1 hs
      · exact hbelow p hp
      · exact UInt8.lt_trans (hsmaller s hs) (hbelow p hp)

namespace Lists

theorem mem (h : t.Lists m a rs) (hr : r ∈ rs) :
    (∃ b, t.record? m b = .ok (some r)) ∧ ∃ found, t.record? m r.next = .ok found := by
  induction rs generalizing a with
  | nil => cases hr
  | cons s rest ih =>
    obtain ⟨hs, hrest⟩ := h
    obtain rfl | hr := List.mem_cons.1 hr
    · refine ⟨⟨a, hs⟩, ?_⟩
      cases rest with
      | nil => exact ⟨none, hrest⟩
      | cons s' _ => exact ⟨some s', hrest.1⟩
    · exact ih hrest hr

theorem data_inside (h : t.Lists m a rs) (hr : r ∈ rs) : r.data + r.size < m.bytes.size := by
  obtain ⟨-, found, hnext⟩ := h.mem hr
  exact record?_inside hnext

theorem numberAt_eq (h : t.Lists m a rs) :
    t.numberAt m a = .ok ((rs.head?.map PropertyRecord.number).getD 0) := by
  cases rs with
  | nil =>
    change t.record? m a = .ok none at h
    rw [numberAt, h]
    rfl
  | cons r rest =>
    rw [numberAt, h.1]
    rfl

end Lists

namespace Falling

theorem find?_eq_none (h : Falling (r :: rs)) (hp : r.number < p) :
    (r :: rs).find? (·.number = p) = none := by
  rw [List.find?_eq_none]
  intro s hs
  have hlt : s.number < p := by
    obtain rfl | hs := List.mem_cons.1 hs
    · exact hp
    · exact UInt8.lt_trans ((List.pairwise_cons.1 h).1 s hs) hp
  simpa using UInt8.ne_of_lt hlt

theorem find?_of_mem (h : Falling rs) (hr : r ∈ rs) : rs.find? (·.number = r.number) = some r := by
  induction rs with
  | nil => cases hr
  | cons s rest ih =>
    obtain ⟨hs, hrest⟩ := List.pairwise_cons.1 h
    obtain rfl | hr := List.mem_cons.1 hr
    · simp
    · have hne : s.number ≠ r.number := (UInt8.ne_of_lt (hs r hr)).symm
      rw [List.find?_cons_of_neg (by simpa using hne)]
      exact ih hrest hr

end Falling

theorem findFrom_eq (h : t.Lists m a rs) (hfall : Falling rs)
    (hlt : ∀ r ∈ rs, r.number.toNat < left) (hleft : 0 < left) :
    t.findFrom m obj p left a = .ok (rs.find? (·.number = p)) := by
  -- The walk needs no more steps than there are numbers left below the last one it met, so that
  -- even a list of all numbers is walked to its end.
  induction rs generalizing a left with
  | nil =>
    obtain _ | left := left
    · omega
    · change t.record? m a = .ok none at h
      rw [findFrom, h]
      rfl
  | cons r rest ih =>
    obtain _ | left := left
    · omega
    · obtain ⟨hr, hrest⟩ := h
      obtain ⟨hbelow, hfall'⟩ := List.pairwise_cons.1 hfall
      rw [findFrom, hr]
      change (if r.number = p then _ else _) = _
      by_cases hp : r.number = p
      · rw [if_pos hp, List.find?_cons_of_pos (by simpa using hp)]
        rfl
      · rw [if_neg hp]
        by_cases hless : r.number < p
        · rw [if_pos hless, hfall.find?_eq_none hless]
          rfl
        · rw [if_neg hless, List.find?_cons_of_neg (by simpa using hp)]
          have hr' : r.number.toNat < left + 1 := hlt r List.mem_cons_self
          have hgt : p.toNat < r.number.toNat := by
            have hle := UInt8.le_iff_toNat_le.1 (UInt8.not_lt.1 hless)
            have hne : r.number.toNat ≠ p.toNat := fun e => hp (UInt8.toNat_inj.1 e)
            omega
          apply ih hrest hfall'
          · intro s hs
            have hs' := UInt8.lt_iff_toNat_lt.1 (hbelow s hs)
            omega
          · omega

/-- The numbers that follow each other from `p`, up to the first 0. -/
def Walks (t : ObjectTable) (m : Memory) (obj : UInt16) : UInt8 → List UInt8 → Prop
  | p, [] => t.nextProperty m obj p = .ok 0
  | p, q :: rest => q ≠ 0 ∧ t.nextProperty m obj p = .ok q ∧ Walks t m obj q rest

theorem Walks.unique {xs ys : List UInt8} (h : t.Walks m obj p xs) (h' : t.Walks m obj p ys) :
    xs = ys := by
  induction xs generalizing p ys with
  | nil =>
    cases ys with
    | nil => rfl
    | cons y ys => exact absurd (Except.ok.inj (h.symm.trans h'.2.1)).symm h'.1
  | cons x xs ih =>
    cases ys with
    | nil => exact absurd (Except.ok.inj (h.2.1.symm.trans h')) h.1
    | cons y ys =>
      obtain rfl : x = y := Except.ok.inj (h.2.1.symm.trans h'.2.1)
      rw [ih h.2.2 h'.2.2]

theorem walks_of_lists (h : t.Lists m a rs) (hfall : Falling rs)
    (hp : t.nextProperty m obj p = t.numberAt m a)
    (hnext : ∀ r ∈ rs, r.number ≠ 0 → t.nextProperty m obj r.number = t.numberAt m r.next) :
    t.Walks m obj p ((rs.map PropertyRecord.number).filter (· ≠ 0)) := by
  induction rs generalizing a p with
  | nil => exact hp.trans h.numberAt_eq
  | cons r rest ih =>
    rw [h.numberAt_eq] at hp
    obtain ⟨hbelow, hfall'⟩ := List.pairwise_cons.1 hfall
    by_cases hzero : r.number = 0
    · -- numbers fall, so nothing comes after the number 0
      have hrest : rest = [] := by
        apply List.eq_nil_iff_forall_not_mem.2
        intro s hs
        have hs' := hbelow s hs
        rw [hzero] at hs'
        exact UInt8.not_lt_zero hs'
      subst hrest
      change t.nextProperty m obj p = .ok r.number at hp
      rw [List.map_cons, List.filter_cons_of_neg (by simpa using hzero)]
      rwa [hzero] at hp
    · rw [List.map_cons, List.filter_cons_of_pos (by simpa using hzero)]
      refine ⟨hzero, hp, ih h.2 hfall' (hnext r List.mem_cons_self hzero) ?_⟩
      intro s hs
      exact hnext s (List.mem_cons_of_mem _ hs)

theorem property_of_some (h : t.findProperty m obj p = .ok (some r)) (hpos : 0 < r.size)
    (hinside : r.data + r.size ≤ m.bytes.size) : ∃ v, t.property m obj p = .ok v := by
  rw [property, h]
  change ∃ v, (if r.size = 1 then UInt8.toUInt16 <$> m.byte r.data else m.word r.data) = .ok v
  by_cases hsize : r.size = 1
  · obtain ⟨v, hv⟩ := Memory.byte_of_lt (show r.data < m.bytes.size by omega)
    rw [if_pos hsize, hv]
    exact ⟨v.toUInt16, rfl⟩
  · rw [if_neg hsize]
    exact Memory.word_of_lt (by omega)

theorem property_of_none (h : t.findProperty m obj p = .ok none) :
    t.property m obj p = t.defaultProperty m p := by
  rw [property, h]
  rfl

/-- Every look-up of a property agrees with the list of all properties, when there is one. -/
theorem property_lookups (h : t.properties m obj = .ok rs) :
    rs.length ≤ 64 ∧ (rs.map PropertyRecord.number).Pairwise (· > ·) ∧
      (∃ a, t.firstRecord m obj = .ok a ∧ t.Lists m a rs) ∧
      (∀ r ∈ rs, r.data + r.size ≤ m.size) ∧
      (∀ p, t.findProperty m obj p = .ok (rs.find? (·.number = p))) ∧
      (∀ p, t.propertyAddress m obj p =
        .ok (((rs.find? (·.number = p)).map PropertyRecord.data).getD 0)) ∧
      (∀ r ∈ rs, ∃ v, t.property m obj r.number = .ok v) ∧
      (∀ p, (∀ r ∈ rs, r.number ≠ p) → t.property m obj p = t.defaultProperty m p) ∧
      ∀ ps, t.Walks m obj 0 ps ↔ ps = (rs.map PropertyRecord.number).filter (· ≠ 0) := by
  obtain ⟨a, hfirst, h⟩ := ok_of_bind_except h
  obtain ⟨hlists, hlength, hfall, -⟩ := recordsFrom_ok h
  have hfind : ∀ p, t.findProperty m obj p = .ok (rs.find? (·.number = p)) := by
    intro p
    rw [findProperty, hfirst]
    apply findFrom_eq hlists hfall _ (by decide)
    intro r hr
    obtain ⟨⟨b, hb⟩, -⟩ := hlists.mem hr
    exact (record?_some hb).1
  have hwalk : t.Walks m obj 0 ((rs.map PropertyRecord.number).filter (· ≠ 0)) := by
    apply walks_of_lists hlists hfall
    · rw [nextProperty, if_pos rfl, hfirst]
      rfl
    · intro r hr hne
      rw [nextProperty, if_neg hne, hfind, hfall.find?_of_mem hr]
      rfl
  refine ⟨hlength, List.pairwise_map.2 hfall, ⟨a, hfirst, hlists⟩, ?_, hfind, ?_, ?_, ?_, ?_⟩
  · intro r hr
    exact Nat.le_of_lt (hlists.data_inside hr)
  · intro p
    rw [propertyAddress, hfind]
    rfl
  · intro r hr
    obtain ⟨⟨b, hb⟩, -⟩ := hlists.mem hr
    have hfound := hfind r.number
    rw [hfall.find?_of_mem hr] at hfound
    exact property_of_some hfound (record?_some hb).2 (Nat.le_of_lt (hlists.data_inside hr))
  · intro p hp
    apply property_of_none
    rw [hfind, List.find?_eq_none.2 (by simpa using hp)]
  · intro ps
    constructor
    · intro hps
      exact hps.unique hwalk
    · rintro rfl
      exact hwalk

def fullWorld : Memory :=
  -- Object 1 with all 64 properties, the one numbered 0 with two bytes of data.
  ⟨(List.replicate 138 0 ++ [0, 140, 0] ++
    (List.range 63).flatMap (fun k => [UInt8.ofNat (63 - k), 7]) ++ [0x40, 0, 9, 0]).toArray,
    by decide +kernel, by decide +kernel⟩

def fullTable : ObjectTable := ⟨0, 5⟩

def fullRecords : List PropertyRecord :=
  (List.range 63).map (fun k => ⟨UInt8.ofNat (63 - k), 1, 142 + 2 * k⟩) ++ [⟨0, 2, 268⟩]

theorem property_lookups_full :
    fullTable.properties fullWorld 1 = .ok fullRecords ∧ fullRecords.length = 64 ∧
      fullTable.findProperty fullWorld 1 0 = .ok (some ⟨0, 2, 268⟩) ∧
      fullTable.Walks fullWorld 1 0 ((List.range 63).map fun k => UInt8.ofNat (63 - k)) := by
  have hlist : fullTable.properties fullWorld 1 = .ok fullRecords := by
    apply ok_of_toOption
    decide +kernel
  obtain ⟨-, -, -, -, hfind, -, -, -, hwalk⟩ := property_lookups hlist
  refine ⟨hlist, rfl, (hfind 0).trans ?_, (hwalk _).2 ?_⟩
  · apply ok_of_toOption
    decide +kernel
  · decide +kernel

end ZMachine.ObjectTable
