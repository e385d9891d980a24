import ZMachine.Proofs.Object.Links
import ZMachine.Proofs.Object.PropertyList

namespace ZMachine.ObjectTable

variable {t : ObjectTable} {m m' : Memory} {obj : UInt16} {p : UInt8} {a left width : Nat}
  {r s : PropertyRecord} {rs : List PropertyRecord}

theorem recordsFrom_of_lists {previous : Option UInt8} (h : t.Lists m a rs) (hfall : Falling rs)
    (hlength : rs.length ≤ left) (hbelow : ∀ p ∈ previous, ∀ r ∈ rs, r.number < p) :
    t.recordsFrom m obj left previous a = .ok rs := by
  induction rs generalizing a left previous with
  | nil =>
    change t.record? m a = .ok none at h
    unfold recordsFrom
    rw [h]
    rfl
  | cons r rest ih =>
    obtain ⟨hr, hrest⟩ := h
    obtain ⟨hsmaller, hfall'⟩ := List.pairwise_cons.1 hfall
    obtain _ | left := left
    · exact absurd hlength (Nat.not_succ_le_zero _)
    have hnext : t.recordsFrom m obj left (some r.number) r.next = .ok rest := by
      apply ih hrest hfall' (Nat.le_of_succ_le_succ hlength)
      rintro q ⟨⟩
      exact hsmaller
    unfold recordsFrom
    rw [hr]
    cases previous with
    | none =>
      change (do return r :: (← t.recordsFrom m obj left (some r.number) r.next)) = _
      rw [hnext]
      rfl
    | some q =>
      have hq : ¬ q ≤ r.number := UInt8.not_le.2 (hbelow q rfl r List.mem_cons_self)
      change (if q ≤ r.number then _ else
        (do return r :: (← t.recordsFrom m obj left (some r.number) r.next))) = _
      rw [if_neg hq, hnext]
      rfl

theorem properties_iff : t.properties m obj = .ok rs ↔
    ∃ a, t.firstRecord m obj = .ok a ∧ t.Lists m a rs ∧ Falling rs ∧ rs.length ≤ 64 := by
  constructor
  · intro h
    obtain ⟨a, hfirst, h⟩ := ok_of_bind_except h
    obtain ⟨hlists, hlength, hfall, -⟩ := recordsFrom_ok h
    exact ⟨a, hfirst, hlists, hfall, hlength⟩
  · rintro ⟨a, hfirst, hlists, hfall, hlength⟩
    rw [properties, hfirst]
    apply recordsFrom_of_lists hlists hfall hlength
    rintro q ⟨⟩

theorem findProperty_of_properties (h : t.properties m obj = .ok rs) (p : UInt8) :
    t.findProperty m obj p = .ok (rs.find? (·.number = p)) := by
  obtain ⟨a, hfirst, hlists, hfall, -⟩ := properties_iff.1 h
  rw [findProperty, hfirst]
  apply findFrom_eq hlists hfall _ (by decide)
  intro r hr
  obtain ⟨⟨b, hb⟩, -⟩ := hlists.mem hr
  exact (record?_some hb).1

theorem record?_cases (h : t.record? m a = .ok (some r)) :
    ∃ first, m.byte a = .ok first ∧ first ≠ 0 ∧
      ((t.version ≤ 3 ∧ r = ⟨UInt8.ofNat (first.toNat % 32), first.toNat / 32 + 1, a + 1⟩) ∨
        (¬ t.version ≤ 3 ∧ ¬ 128 ≤ first ∧
          r = ⟨UInt8.ofNat (first.toNat % 64), if 64 ≤ first then 2 else 1, a + 1⟩) ∨
        (¬ t.version ≤ 3 ∧ 128 ≤ first ∧ ∃ size, m.byte (a + 1) = .ok size ∧
          r = ⟨UInt8.ofNat (first.toNat % 64), longSize size, a + 2⟩)) := by
  obtain ⟨first, hfirst, h⟩ := ok_of_bind_except h
  refine ⟨first, hfirst, ?_⟩
  split at h
  · cases h
  next hne =>
  refine ⟨hne, ?_⟩
  split at h
  · next hv =>
    cases h
    exact .inl ⟨hv, rfl⟩
  next hv =>
  split at h
  · next hlong =>
    obtain ⟨size, hsize, h⟩ := ok_of_bind_except h
    cases h
    exact .inr (.inr ⟨hv, hlong, size, hsize, rfl⟩)
  · next hshort =>
    cases h
    exact .inr (.inl ⟨hv, hshort, rfl⟩)

theorem record?_early {first : UInt8} (hv : t.version ≤ 3) (hfirst : m.byte a = .ok first) (hne : first ≠ 0) :
    t.record? m a = .ok (some ⟨UInt8.ofNat (first.toNat % 32), first.toNat / 32 + 1, a + 1⟩) := by
  rw [record?, hfirst]
  simp only [bind, Except.bind, hne, hv, ↓reduceIte]
  rfl

theorem record?_short {first : UInt8} (hv : ¬ t.version ≤ 3) (hfirst : m.byte a = .ok first) (hne : first ≠ 0)
    (hshort : ¬ 128 ≤ first) :
    t.record? m a = .ok (some ⟨UInt8.ofNat (first.toNat % 64), if 64 ≤ first then 2 else 1, a + 1⟩) := by
  rw [record?, hfirst]
  simp only [bind, Except.bind, hne, hv, hshort, ↓reduceIte]
  rfl

theorem record?_long {first size : UInt8} (hv : ¬ t.version ≤ 3) (hfirst : m.byte a = .ok first)
    (hlong : 128 ≤ first) (hsize : m.byte (a + 1) = .ok size) :
    t.record? m a = .ok (some ⟨UInt8.ofNat (first.toNat % 64), longSize size, a + 2⟩) := by
  have hne : first ≠ 0 := by
    rintro rfl
    exact absurd hlong (by decide)
  rw [record?, hfirst]
  simp only [bind, Except.bind, hne, hv, hlong, hsize, ↓reduceIte]
  rfl

theorem version_of_data (h : t.record? m a = .ok (some r)) (hdata : r.data = a + 2) :
    ¬ t.version ≤ 3 := by
  obtain ⟨first, -, -, ⟨-, rfl⟩ | ⟨hv, -⟩ | ⟨hv, -⟩⟩ := record?_cases h
  · exact absurd hdata (by simp)
  · exact hv
  · exact hv

theorem propertyLength_succ {b : UInt8} (h : m.byte a = .ok b) :
    t.propertyLength m (a + 1) = .ok (if t.version ≤ 3 then b.toNat / 32 + 1
      else if 128 ≤ b then longSize b else if 64 ≤ b then 2 else 1) := by
  rw [propertyLength, if_neg (Nat.succ_ne_zero a), Nat.add_sub_cancel, h]
  rfl

/-- If the header has two bytes, then the top bit of the second one is set. -/
def Marked (t : ObjectTable) (m : Memory) (r : PropertyRecord) : Prop :=
  ∀ a size, t.record? m a = .ok (some r) → r.data = a + 2 → m.byte (a + 1) = .ok size → 128 ≤ size

theorem marked_of_early (h : t.version ≤ 3) : t.Marked m r := by
  intro a size hr hdata _
  exact absurd h (version_of_data hr hdata)

theorem propertyLength_of_marked (h : t.record? m a = .ok (some r)) (hr : t.Marked m r) :
    t.propertyLength m r.data = .ok r.size := by
  obtain ⟨first, hfirst, -, ⟨hv, rfl⟩ | ⟨hv, hshort, rfl⟩ | ⟨hv, -, size, hsize, rfl⟩⟩ :=
    record?_cases h
  · rw [propertyLength_succ hfirst, if_pos hv]
  · rw [propertyLength_succ hfirst, if_neg hv, if_neg hshort]
  · have hmark : 128 ≤ size := hr a size h rfl hsize
    rw [propertyLength_succ hsize, if_neg hv, if_pos hmark]

theorem marked_of_propertyLength (h : t.propertyLength m r.data = .ok r.size) (hlarge : 2 < r.size) :
    t.Marked m r := by
  -- A second byte that is not marked passes for a header of one byte, which tells a size of 1 or 2.
  intro a size hr hdata hsize
  rw [hdata, propertyLength_succ hsize, if_neg (version_of_data hr hdata)] at h
  by_cases hmark : 128 ≤ size
  · exact hmark
  · rw [if_neg hmark] at h
    have hsmall : (if 64 ≤ size then 2 else 1) ≤ 2 := by
      split <;> omega
    have heq : (if 64 ≤ size then 2 else 1) = r.size := Except.ok.inj h
    omega

theorem propertyAddress_of_properties (h : t.properties m obj = .ok rs) (p : UInt8) :
    t.propertyAddress m obj p = .ok (((rs.find? (·.number = p)).map PropertyRecord.data).getD 0) := by
  rw [propertyAddress, findProperty_of_properties h]
  rfl

/-- The size that is read back before the data of a listed property is the size in the list if the
header is marked, and for data of more than two bytes only then. -/
theorem propertyLength_of_listed (h : t.properties m obj = .ok rs) :
    (∀ r ∈ rs, t.Marked m r → t.propertyLength m r.data = .ok r.size) ∧
      (∀ r ∈ rs, 2 < r.size → (t.propertyLength m r.data = .ok r.size ↔ t.Marked m r)) ∧
      (t.version ≤ 3 → ∀ r ∈ rs, t.Marked m r) ∧
      ∀ p, (∀ r ∈ rs, r.number = p → t.Marked m r) →
        ∃ a, t.propertyAddress m obj p = .ok a ∧
          t.propertyLength m a = .ok (((rs.find? (·.number = p)).map PropertyRecord.size).getD 0) := by
  obtain ⟨first, -, hlists, -⟩ := properties_iff.1 h
  have hback : ∀ r ∈ rs, t.Marked m r → t.propertyLength m r.data = .ok r.size := by
    intro r hr hmark
    obtain ⟨⟨b, hb⟩, -⟩ := hlists.mem hr
    exact propertyLength_of_marked hb hmark
  refine ⟨hback, ?_, fun hv r _ => marked_of_early hv, ?_⟩
  · intro r hr hlarge
    constructor
    · intro hlength
      exact marked_of_propertyLength hlength hlarge
    · exact hback r hr
  · intro p hmark
    refine ⟨_, propertyAddress_of_properties h p, ?_⟩
    cases hfind : rs.find? (·.number = p) with
    | none => rfl
    | some r =>
      have hp : r.number = p := by simpa using List.find?_some hfind
      have hr := List.mem_of_find?_eq_some hfind
      exact hback r hr (hmark r hr hp)

def longWorld (size : UInt8) : Memory :=
  -- Object 1 with property 30, which has a header of two bytes and three bytes of data.
  ⟨(List.replicate 138 0 ++ [0, 140, 0, 0x9E, size, 1, 2, 3, 0]).toArray, by simp, by simp⟩

def longTable : ObjectTable := ⟨0, 5⟩

theorem propertyLength_of_listed_three :
    longTable.properties (longWorld 0x83) 1 = .ok [⟨30, 3, 143⟩] ∧
      longTable.Marked (longWorld 0x83) ⟨30, 3, 143⟩ ∧
      longTable.propertyLength (longWorld 0x83) 143 = .ok 3 := by
  have hlist : longTable.properties (longWorld 0x83) 1 = .ok [⟨30, 3, 143⟩] := by
    apply ok_of_toOption
    decide +kernel
  have hmark : longTable.Marked (longWorld 0x83) ⟨30, 3, 143⟩ := by
    intro a size _ hdata hsize
    obtain rfl : a = 141 := by simpa using hdata.symm
    have hbyte : (longWorld 0x83).byte (141 + 1) = .ok 0x83 := ok_of_toOption (by decide +kernel)
    rw [← Except.ok.inj (hbyte.symm.trans hsize)]
    decide
  obtain ⟨hback, -⟩ := propertyLength_of_listed hlist
  exact ⟨hlist, hmark, hback ⟨30, 3, 143⟩ List.mem_cons_self hmark⟩

theorem propertyLength_unmarked :
    longTable.properties (longWorld 3) 1 = .ok [⟨30, 3, 143⟩] ∧
      longTable.propertyAddress (longWorld 3) 1 30 = .ok 143 ∧
      longTable.propertyLength (longWorld 3) 143 = .ok 1 := by
  refine ⟨ok_of_toOption ?_, ok_of_toOption ?_, ok_of_toOption ?_⟩ <;> decide +kernel

theorem record?_of_header (h : t.record? m a = .ok (some r))
    (hb : ∀ b, a ≤ b → b < r.data → m'.byte b = m.byte b) : t.record? m' a = .ok (some r) := by
  obtain ⟨first, hfirst, hne, ⟨hv, rfl⟩ | ⟨hv, hshort, rfl⟩ | ⟨hv, hlong, size, hsize, rfl⟩⟩ :=
    record?_cases h
  · exact record?_early hv ((hb a (by simp) (by simp)).trans hfirst) hne
  · exact record?_short hv ((hb a (by simp) (by simp)).trans hfirst) hne hshort
  · exact record?_long hv ((hb a (by simp) (by simp)).trans hfirst) hlong
      ((hb (a + 1) (by simp) (by simp)).trans hsize)

theorem record?_end (h : t.record? m a = .ok none) (hb : m'.byte a = m.byte a) :
    t.record? m' a = .ok none := by
  obtain ⟨first, hfirst, h⟩ := ok_of_bind_except h
  have hzero : first = 0 := by
    split at h
    · assumption
    · split at h
      · cases h
      · split at h
        · obtain ⟨_, -, h⟩ := ok_of_bind_except h
          cases h
        · cases h
  rw [record?, hb, hfirst, hzero]
  rfl

def listEnd : Nat → List PropertyRecord → Nat
  | a, [] => a
  | _, r :: rest => listEnd r.next rest

theorem record?_lt (h : t.record? m a = .ok (some r)) : a < r.data ∧ r.data < r.next := by
  have hsize := (record?_some h).2
  obtain ⟨first, -, -, ⟨-, rfl⟩ | ⟨-, -, rfl⟩ | ⟨-, -, size, -, rfl⟩⟩ := record?_cases h
  all_goals
    simp only [PropertyRecord.next] at hsize ⊢
    omega

namespace Lists

theorem le_listEnd (h : t.Lists m a rs) : a ≤ listEnd a rs := by
  induction rs generalizing a with
  | nil => exact Nat.le_refl a
  | cons r rest ih =>
    have hr := record?_lt h.1
    have hrest := ih h.2
    simp only [listEnd]
    omega

theorem data_between (h : t.Lists m a rs) (hr : r ∈ rs) : a < r.data ∧ r.next ≤ listEnd a rs := by
  induction rs generalizing a with
  | nil => cases hr
  | cons s rest ih =>
    have hs := record?_lt h.1
    simp only [listEnd]
    obtain rfl | hr := List.mem_cons.1 hr
    · exact ⟨hs.1, le_listEnd h.2⟩
    · have hrest := ih h.2 hr
      omega

theorem apart (h : t.Lists m a rs) (hr : r ∈ rs) (hs : s ∈ rs) (hne : r ≠ s) :
    r.next ≤ s.data ∨ s.next ≤ r.data := by
  induction rs generalizing a with
  | nil => cases hr
  | cons q rest ih =>
    obtain rfl | hr' := List.mem_cons.1 hr
    · obtain rfl | hs' := List.mem_cons.1 hs
      · exact absurd rfl hne
      · exact .inl (Nat.le_of_lt (data_between h.2 hs').1)
    · obtain rfl | hs' := List.mem_cons.1 hs
      · exact .inr (Nat.le_of_lt (data_between h.2 hr').1)
      · exact ih h.2 hr' hs'

theorem of_above (h : t.Lists m a rs) (hb : ∀ b, a ≤ b → m'.byte b = m.byte b) :
    t.Lists m' a rs := by
  induction rs generalizing a with
  | nil => exact record?_end h (hb a (Nat.le_refl a))
  | cons r rest ih =>
    have hr := record?_lt h.1
    refine ⟨record?_of_header h.1 fun b hab _ => hb b hab, ih h.2 fun b hrb => hb b ?_⟩
    omega

theorem of_changesAt (h : t.Lists m a rs) (hr : r ∈ rs) (hw : width ≤ r.size)
    (hc : Memory.ChangesAt r.data width m m') : t.Lists m' a rs := by
  -- Data may change under a list: no header and no end is made of it.
  induction rs generalizing a with
  | nil => cases hr
  | cons s rest ih =>
    have hs := record?_lt h.1
    obtain rfl | hr := List.mem_cons.1 hr
    · refine ⟨record?_of_header h.1 fun b _ hb => hc.byte b (.inl hb), of_above h.2 fun b hb => ?_⟩
      apply hc.byte
      simp only [PropertyRecord.next] at hb
      omega
    · have hlt := (data_between h.2 hr).1
      refine ⟨record?_of_header h.1 fun b _ hb => hc.byte b (.inl ?_), ih h.2 hr⟩
      omega

end Lists

def valueAt (m : Memory) (r : PropertyRecord) : Except Fault UInt16 :=
  if r.size = 1 then UInt8.toUInt16 <$> m.byte r.data else m.word r.data

theorem findProperty_of_mem (h : t.properties m obj = .ok rs) (hr : r ∈ rs) :
    t.findProperty m obj r.number = .ok (some r) := by
  obtain ⟨a, -, -, hfall, -⟩ := properties_iff.1 h
  rw [findProperty_of_properties h, hfall.find?_of_mem hr]

theorem property_of_mem (h : t.properties m obj = .ok rs) (hr : r ∈ rs) :
    t.property m obj r.number = valueAt m r := by
  rw [property, findProperty_of_mem h hr]
  rfl

theorem valueAt_of_apart (hc : Memory.ChangesAt a width m m') (hs : 0 < s.size)
    (hapart : a + width ≤ s.data ∨ s.next ≤ a) : valueAt m' s = valueAt m s := by
  simp only [PropertyRecord.next] at hapart
  unfold valueAt
  split
  · rw [hc.byte s.data (by omega)]
  · rw [hc.word (by omega)]

theorem setProperty_of_some {v : UInt16} (h : t.findProperty m obj p = .ok (some r))
    (hsize : 0 < r.size) (hinside : r.data + r.size ≤ m.bytes.size) :
    ∃ m', t.setProperty obj p v m = .ok () m' ∧ Memory.ChangesAt r.data (min r.size 2) m m' ∧
      valueAt m' r = .ok (if r.size = 1 then v % 256 else v) := by
  rw [setProperty, bind_ok _ (reading_ok (f := (t.findProperty · obj p)) h)]
  unfold valueAt
  dsimp only
  by_cases hone : r.size = 1
  · obtain ⟨m', hset, hc, hbyte⟩ := Memory.setByte_ok v.toUInt8 (show r.data < m.bytes.size by omega)
    refine ⟨m', ?_, ?_, ?_⟩
    · rwa [if_pos hone]
    · rwa [hone]
    · rw [if_pos hone, if_pos hone, hbyte]
      apply congrArg Except.ok
      apply UInt16.toNat_inj.1
      simp
  · obtain ⟨m', hset, hc, hword⟩ := Memory.setWord_ok v (show r.data + 1 < m.bytes.size by omega)
    refine ⟨m', ?_, ?_, ?_⟩
    · rwa [if_neg hone]
    · rwa [Nat.min_eq_right (by omega)]
    · rw [if_neg hone, if_neg hone, hword]

theorem setProperty_of_none {v : UInt16} (h : t.findProperty m obj p = .ok none) :
    t.setProperty obj p v m = .error (.malformedProperty (.noTarget obj p)) m := by
  rw [setProperty, bind_ok _ (reading_ok (f := (t.findProperty · obj p)) h)]
  rfl

/-- The property table of the object, from the length of its name to the end of its list, has no
byte in common with the entry of the object. -/
def TableApart (t : ObjectTable) (m : Memory) (obj : UInt16) (rs : List PropertyRecord) : Prop :=
  ∀ entry table first, t.entry obj = .ok entry → t.propertyTable m obj = .ok table →
    t.firstRecord m obj = .ok first →
      listEnd first rs < entry ∨ entry + t.layout.entrySize ≤ table

theorem firstRecord_cases (h : t.firstRecord m obj = .ok a) :
    ∃ entry table name, t.entry obj = .ok entry ∧
      m.word (entry + t.layout.propertyTableOffset) = .ok table ∧ m.byte table.toNat = .ok name ∧
      a = table.toNat + 1 + name.toNat * 2 := by
  obtain ⟨table, htable, h⟩ := ok_of_bind_except h
  obtain ⟨entry, hentry, htable⟩ := ok_of_bind_except htable
  obtain ⟨w, hw, ⟨⟩⟩ := ok_of_bind_except htable
  obtain ⟨name, hname, ⟨⟩⟩ := ok_of_bind_except h
  exact ⟨entry, w, name, hentry, hw, hname, rfl⟩

theorem firstRecord_of_changesAt (hapart : t.TableApart m obj rs) (hfirst : t.firstRecord m obj = .ok a)
    (hlists : t.Lists m a rs) (hr : r ∈ rs) (hw : width ≤ r.size)
    (hc : Memory.ChangesAt r.data width m m') : t.firstRecord m' obj = .ok a := by
  obtain ⟨entry, table, name, hentry, htable, hname, rfl⟩ := firstRecord_cases hfirst
  have hpointer : t.propertyTable m obj = .ok table.toNat := by
    rw [propertyTable, hentry]
    simp only [bind, Except.bind, htable]
    rfl
  have hbetween := hlists.data_between hr
  have houtside := hapart entry _ _ hentry hpointer hfirst
  have htable' : m'.word (entry + t.layout.propertyTableOffset) = .ok table := by
    rw [hc.word, htable]
    simp only [PropertyRecord.next] at hbetween
    obtain ⟨-, hl⟩ | ⟨-, hl⟩ := t.layout_cases
    all_goals
      rw [hl] at houtside ⊢
      simp only [Layout.early, Layout.late] at houtside ⊢
      omega
  have hname' : m'.byte table.toNat = .ok name := by
    rw [hc.byte _ (by omega), hname]
  rw [firstRecord, propertyTable, hentry]
  simp only [bind, Except.bind, htable', hname', pure, Except.pure]

theorem setProperty_of_mem (v : UInt16) (h : t.properties m obj = .ok rs)
    (hapart : t.TableApart m obj rs) (hr : r ∈ rs) :
    ∃ m', t.setProperty obj r.number v m = .ok () m' ∧
      Memory.ChangesAt r.data (min r.size 2) m m' ∧ t.properties m' obj = .ok rs ∧
      valueAt m' r = .ok (if r.size = 1 then v % 256 else v) := by
  obtain ⟨a, hfirst, hlists, hfall, hlength⟩ := properties_iff.1 h
  obtain ⟨⟨b, hb⟩, -⟩ := hlists.mem hr
  obtain ⟨m', hset, hc, hvalue⟩ := setProperty_of_some (v := v) (findProperty_of_mem h hr)
    (record?_some hb).2 (Nat.le_of_lt (hlists.data_inside hr))
  have hw : min r.size 2 ≤ r.size := Nat.min_le_left ..
  refine ⟨m', hset, hc, properties_iff.2 ⟨a, ?_, ?_, hfall, hlength⟩, hvalue⟩
  · exact firstRecord_of_changesAt hapart hfirst hlists hr hw hc
  · exact hlists.of_changesAt hr hw hc

theorem valueAt_of_listed (h : t.properties m obj = .ok rs) (hr : r ∈ rs) (hs : s ∈ rs) (hne : r ≠ s)
    (hw : width ≤ r.size) (hc : Memory.ChangesAt r.data width m m') : valueAt m' s = valueAt m s := by
  obtain ⟨a, -, hlists, -⟩ := properties_iff.1 h
  obtain ⟨⟨b, hb⟩, -⟩ := hlists.mem hs
  apply valueAt_of_apart hc (record?_some hb).2
  obtain hrs | hsr := hlists.apart hr hs hne
  · left
    simp only [PropertyRecord.next] at hrs
    omega
  · exact .inr hsr

/-- A property can be given a value exactly if it is listed. The value is then read back, in as many
bytes as the property has up to two; the list, all other values and all other bytes stay. -/
theorem property_of_setProperty {v : UInt16} (h : t.properties m obj = .ok rs)
    (hapart : t.TableApart m obj rs) :
    ((∃ m', t.setProperty obj p v m = .ok () m') ↔ ∃ r ∈ rs, r.number = p) ∧
      (∀ e m', t.setProperty obj p v m = .error e m' → m' = m) ∧
      ∀ m', t.setProperty obj p v m = .ok () m' →
        t.properties m' obj = .ok rs ∧
        (∀ r ∈ rs, r.number = p → Memory.ChangesAt r.data (min r.size 2) m m' ∧
          t.property m' obj p = .ok (if r.size = 1 then v % 256 else v)) ∧
        ∀ s ∈ rs, s.number ≠ p → t.property m' obj s.number = t.property m obj s.number := by
  have hlookup := findProperty_of_properties h p
  cases hfind : rs.find? (·.number = p) with
  | none =>
    rw [hfind] at hlookup
    rw [setProperty_of_none hlookup]
    refine ⟨?_, ?_, ?_⟩
    · simpa using hfind
    · rintro e m' ⟨⟩
      rfl
    · rintro m' ⟨⟩
  | some r =>
    have hr := List.mem_of_find?_eq_some hfind
    obtain rfl : r.number = p := by simpa using List.find?_some hfind
    obtain ⟨m₁, hset, hc, hlist, hvalue⟩ := setProperty_of_mem v h hapart hr
    rw [hset]
    refine ⟨⟨fun _ => ⟨r, hr, rfl⟩, fun _ => ⟨m₁, rfl⟩⟩, ?_, ?_⟩
    · rintro e m' ⟨⟩
    · rintro m' ⟨⟩
      refine ⟨hlist, ?_, ?_⟩
      · intro s hs hsp
        -- numbers are unique in a list, so that this is the record that was found
        have hfound := findProperty_of_mem h hs
        rw [hsp, findProperty_of_mem h hr] at hfound
        cases hfound
        rw [property_of_mem hlist hr]
        exact ⟨hc, hvalue⟩
      · intro s hs hsp
        have hne : r ≠ s := by
          rintro rfl
          exact hsp rfl
        rw [property_of_mem hlist hs, property_of_mem h hs]
        exact valueAt_of_listed h hr hs hne (Nat.min_le_left ..) hc

theorem property_of_setProperty_full :
    fullTable.properties fullWorld 1 = .ok fullRecords ∧ fullTable.TableApart fullWorld 1 fullRecords ∧
      ∃ m', fullTable.setProperty 1 63 0x1FF fullWorld = .ok () m' ∧
        fullTable.properties m' 1 = .ok fullRecords ∧ fullTable.property m' 1 63 = .ok 0xFF ∧
        fullTable.property m' 1 0 = .ok 9 := by
  have hlist : fullTable.properties fullWorld 1 = .ok fullRecords := by
    apply ok_of_toOption
    decide +kernel
  have hapart : fullTable.TableApart fullWorld 1 fullRecords := by
    intro entry table first hentry htable _
    have hentry' : fullTable.entry 1 = .ok 126 := ok_of_toOption (by decide +kernel)
    have htable' : fullTable.propertyTable fullWorld 1 = .ok 140 := ok_of_toOption (by decide +kernel)
    obtain rfl : 126 = entry := Except.ok.inj (hentry'.symm.trans hentry)
    obtain rfl : 140 = table := Except.ok.inj (htable'.symm.trans htable)
    exact .inr (by decide)
  have hfirst : ⟨63, 1, 142⟩ ∈ fullRecords := by decide +kernel
  have hlast : ⟨0, 2, 268⟩ ∈ fullRecords := by decide +kernel
  obtain ⟨hset, -, hafter⟩ := property_of_setProperty (p := 63) (v := 0x1FF) hlist hapart
  obtain ⟨m', hm'⟩ := hset.2 ⟨_, hfirst, rfl⟩
  obtain ⟨hlist', hvalue, hother⟩ := hafter m' hm'
  refine ⟨hlist, hapart, m', hm', hlist', (hvalue _ hfirst rfl).2, ?_⟩
  have hzero : fullTable.property fullWorld 1 0 = .ok 9 := ok_of_toOption (by decide +kernel)
  exact (hother _ hlast (by decide)).trans hzero

end ZMachine.ObjectTable
