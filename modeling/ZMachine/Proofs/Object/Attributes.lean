import Mathlib.Algebra.Group.Nat.Defs
import ZMachine.Object.Snapshot
import ZMachine.Proofs.Object.Links

namespace ZMachine.ObjectTable

variable {t : ObjectTable} {n obj attr : UInt16} {m m' : Memory} {a b : Nat} {r : Relation} {on : Bool}

theorem testBit_withBit (k i j : Nat) (on : Bool) :
    (withBit k i on).testBit j = if j = i then on else k.testBit j := by
  unfold withBit
  by_cases hk : k.testBit i = on
  · rw [if_pos hk]
    split
    · next hj => rw [hj, hk]
    · rfl
  · rw [if_neg hk, Nat.testBit_xor, Nat.one_shiftLeft, Nat.testBit_two_pow]
    by_cases hj : j = i
    · subst hj
      cases on <;> simpa using hk
    · simp [hj, Ne.symm hj]

theorem withBit_lt {k i w : Nat} (hk : k < 2 ^ w) (hi : i < w) : withBit k i on < 2 ^ w := by
  unfold withBit
  split
  · exact hk
  · rw [Nat.one_shiftLeft]
    exact Nat.xor_lt_two_pow hk (Nat.pow_lt_pow_right (by decide) hi)

theorem testBit_dword {i : Nat} (d : UInt32) (hi : i < 32) (j : Nat) :
    (UInt32.ofNat (withBit d.toNat i on)).toNat.testBit j = if j = i then on else d.toNat.testBit j := by
  rw [UInt32.toNat_ofNat_of_lt' (withBit_lt d.toNat_lt hi), testBit_withBit]

theorem testBit_word {i : Nat} (w : UInt16) (hi : i < 16) (j : Nat) :
    (UInt16.ofNat (withBit w.toNat i on)).toNat.testBit j = if j = i then on else w.toNat.testBit j := by
  rw [UInt16.toNat_ofNat_of_lt' (withBit_lt w.toNat_lt hi), testBit_withBit]

theorem entry_ok (h : t.entry obj = .ok a) :
    obj.toNat ≠ 0 ∧ a = t.base + t.layout.defaultProperties * 2 + (obj.toNat - 1) * t.layout.entrySize := by
  unfold entry at h
  split at h
  · cases h
  · next hobj =>
    cases h
    exact ⟨fun h0 => hobj (.inl (UInt16.toNat_inj.1 h0)), rfl⟩

theorem relationAddress_ok (h : t.relationAddress obj r = .ok b) :
    ∃ a, t.entry obj = .ok a ∧ b = a + t.layout.parentOffset + r.index * t.layout.relationWidth := by
  obtain ⟨a, ha, ⟨⟩⟩ := ok_of_bind_except h
  exact ⟨a, ha, rfl⟩

def attributeBytes (t : ObjectTable) : Nat := t.layout.attributeCount / 8

theorem entries_apart {x : UInt16} {c : Nat} (h : t.entry obj = .ok a) (hx : t.entry x = .ok c) (hne : x ≠ obj) :
    a + t.attributeBytes ≤ c ∨ c + t.attributeBytes ≤ a := by
  obtain ⟨h0, rfl⟩ := entry_ok h
  obtain ⟨hx0, rfl⟩ := entry_ok hx
  have hne' : x.toNat ≠ obj.toNat := fun e => hne (UInt16.toNat_inj.1 e)
  rw [attributeBytes]
  obtain ⟨-, hl⟩ | ⟨-, hl⟩ := t.layout_cases
  all_goals
    rw [hl]
    simp only [Layout.early, Layout.late]
    omega

theorem attributes_apart {x : UInt16} (h : t.entry obj = .ok a) (hx : t.relationAddress x r = .ok b) :
    a + t.attributeBytes ≤ b ∨ b + t.layout.relationWidth ≤ a := by
  obtain ⟨c, hc, rfl⟩ := relationAddress_ok hx
  obtain ⟨h0, rfl⟩ := entry_ok h
  obtain ⟨hx0, rfl⟩ := entry_ok hc
  rw [attributeBytes]
  obtain ⟨-, hl⟩ | ⟨-, hl⟩ := t.layout_cases
  all_goals
    rw [hl]
    cases r <;> simp only [Layout.early, Layout.late, Relation.index] <;> omega

def AttributeByte (t : ObjectTable) (n : UInt16) (b : Nat) : Prop :=
  ∃ obj a, Numbered n obj ∧ t.entry obj = .ok a ∧ a ≤ b ∧ b < a + t.attributeBytes

def LinkByte (t : ObjectTable) (n : UInt16) (b : Nat) : Prop :=
  ∃ obj r a, Numbered n obj ∧ t.relationAddress obj r = .ok a ∧ a ≤ b ∧ b < a + t.layout.relationWidth

theorem testAttribute_of_le (h : t.layout.attributeCount ≤ attr.toNat) : t.testAttribute m obj attr = .ok false :=
  if_pos h

theorem putAttribute_of_le (h : t.layout.attributeCount ≤ attr.toNat) :
    t.putAttribute obj attr on m = .ok () m := by
  rw [putAttribute, if_pos h]
  rfl

theorem testAttribute_eq (hattr : attr.toNat < t.layout.attributeCount) (h : t.entry obj = .ok a) :
    t.testAttribute m obj attr =
      if attr < 32 then (fun d : UInt32 => d.toNat.testBit (31 - attr.toNat)) <$> m.dword a
      else (fun w : UInt16 => w.toNat.testBit (47 - attr.toNat)) <$> m.word (a + 4) := by
  rw [testAttribute, if_neg (by omega), h]
  by_cases hlow : attr < 32
  · rw [if_pos hlow]
    exact if_pos hlow
  · rw [if_neg hlow]
    exact if_neg hlow

theorem lt_32 (h : attr < 32) : attr.toNat < 32 := UInt16.lt_iff_toNat_lt.1 h

theorem not_lt_32 (h : ¬ attr < 32) : 32 ≤ attr.toNat := by
  simpa using UInt16.le_iff_toNat_le.1 (UInt16.not_lt.1 h)

theorem attributeCount_low (t : ObjectTable) : 32 ≤ t.layout.attributeCount := by
  obtain ⟨-, hl⟩ | ⟨-, hl⟩ := t.layout_cases
  all_goals
    rw [hl]
    decide

theorem attributeBytes_low (t : ObjectTable) : 4 ≤ t.attributeBytes := by
  have hcount := t.attributeCount_low
  rw [attributeBytes]
  omega

theorem attributeBytes_high (hattr : attr.toNat < t.layout.attributeCount) (hhigh : ¬ attr < 32) :
    t.attributeBytes = 6 ∧ attr.toNat < 48 := by
  have hge := not_lt_32 hhigh
  obtain ⟨-, hl⟩ | ⟨-, hl⟩ := t.layout_cases
  · rw [hl] at hattr
    have hlt : attr.toNat < 32 := hattr
    omega
  · rw [hl] at hattr
    refine ⟨?_, hattr⟩
    rw [attributeBytes, hl]
    rfl

theorem testAttribute_congr {P : Nat → Prop} (hc : Memory.ChangesWithin P m m')
    (hP : ∀ a b, t.entry obj = .ok a → a ≤ b → b < a + t.attributeBytes → ¬ P b) :
    t.testAttribute m' obj attr = t.testAttribute m obj attr := by
  by_cases hattr : attr.toNat < t.layout.attributeCount
  · cases ha : t.entry obj with
    | error e =>
      rw [testAttribute, testAttribute, ha]
      rfl
    | ok a =>
      rw [testAttribute_eq hattr ha, testAttribute_eq hattr ha]
      by_cases hlow : attr < 32
      · have hwidth := t.attributeBytes_low
        rw [if_pos hlow, if_pos hlow, hc.dword]
        intro b hb hb'
        exact hP a b ha hb (by omega)
      · have hwidth := (attributeBytes_high hattr hlow).1
        rw [if_neg hlow, if_neg hlow, hc.word]
        intro b hb hb'
        exact hP a b ha (by omega) (by omega)
  · rw [testAttribute_of_le (by omega), testAttribute_of_le (by omega)]

theorem relation_congr {P : Nat → Prop} (hc : Memory.ChangesWithin P m m')
    (hP : ∀ a b, t.relationAddress obj r = .ok a → a ≤ b → b < a + t.layout.relationWidth → ¬ P b) :
    t.relation m' obj r = t.relation m obj r := by
  cases ha : t.relationAddress obj r with
  | error e =>
    rw [relation, relation, ha]
    rfl
  | ok a =>
    rw [relation, relation, ha]
    have hP' : ∀ b, a ≤ b → b < a + t.layout.relationWidth → ¬ P b := fun b => hP a b ha
    obtain ⟨-, hl⟩ | ⟨-, hl⟩ := t.layout_cases
    · rw [hl] at hP' ⊢
      change UInt8.toUInt16 <$> m'.byte a = UInt8.toUInt16 <$> m.byte a
      rw [hc.byte a (hP' a (Nat.le_refl a) (Nat.lt_succ_self a))]
    · rw [hl] at hP' ⊢
      exact hc.word hP'

structure Marks (t : ObjectTable) (n obj attr : UInt16) (on : Bool) (m m' : Memory) : Prop where
  within : Memory.ChangesWithin (t.AttributeByte n) m m'
  here : t.testAttribute m' obj attr = .ok on
  other : ∀ {x c}, ¬ (x = obj ∧ c = attr) → t.testAttribute m' x c = t.testAttribute m x c

theorem marks_of_changesAt {width : Nat} (hobj : Numbered n obj) (ha : t.entry obj = .ok a)
    (hc : Memory.ChangesAt b width m m') (hb : a ≤ b ∧ b + width ≤ a + t.attributeBytes)
    (hread : ∀ c : UInt16, c.toNat < t.layout.attributeCount →
      t.testAttribute m' obj c = if c = attr then .ok on else t.testAttribute m obj c)
    (hattr : attr.toNat < t.layout.attributeCount) : t.Marks n obj attr on m m' := by
  refine ⟨?_, ?_, ?_⟩
  · apply hc.within
    intro c hc hc'
    exact ⟨obj, a, hobj, ha, by omega, by omega⟩
  · rw [hread attr hattr, if_pos rfl]
  · intro x c hne
    by_cases hx : x = obj
    · subst hx
      by_cases hrange : c.toNat < t.layout.attributeCount
      · rw [hread c hrange, if_neg fun hca => hne ⟨rfl, hca⟩]
      · rw [testAttribute_of_le (by omega), testAttribute_of_le (by omega)]
    · -- the entry of another object is apart from all that was written
      apply testAttribute_congr (hc.within (P := fun d => b ≤ d ∧ d < b + width) fun d hd hd' => ⟨hd, hd'⟩)
      intro d e hd hde hde'
      have hapart := entries_apart ha hd hx
      omega

theorem marks_of_dword {d : UInt32} (hobj : Numbered n obj) (ha : t.entry obj = .ok a) (hlow : attr < 32)
    (hd : m.dword a = .ok d) (hc : Memory.ChangesAt a 4 m m')
    (hd' : m'.dword a = .ok (UInt32.ofNat (withBit d.toNat (31 - attr.toNat) on))) :
    t.Marks n obj attr on m m' := by
  have hattr := lt_32 hlow
  have hwidth := t.attributeBytes_low
  refine marks_of_changesAt hobj ha hc (by omega) ?_ (Nat.lt_of_lt_of_le hattr t.attributeCount_low)
  intro c hrange
  rw [testAttribute_eq hrange ha, testAttribute_eq hrange ha]
  by_cases hclow : c < 32
  · have hsame : 31 - c.toNat = 31 - attr.toNat ↔ c = attr := by
      have hc' := lt_32 hclow
      rw [← UInt16.toNat_inj]
      omega
    rw [if_pos hclow, if_pos hclow, hd, hd']
    change Except.ok (Nat.testBit _ _) = if c = attr then .ok on else .ok (Nat.testBit _ _)
    rw [testBit_dword d (by omega), apply_ite Except.ok]
    simp only [hsame]
  · rw [if_neg hclow, if_neg hclow, hc.word (by omega), if_neg]
    rintro rfl
    exact hclow hlow

theorem marks_of_word {w : UInt16} (hobj : Numbered n obj) (ha : t.entry obj = .ok a)
    (hattr : attr.toNat < t.layout.attributeCount) (hhigh : ¬ attr < 32)
    (hw : m.word (a + 4) = .ok w) (hc : Memory.ChangesAt (a + 4) 2 m m')
    (hw' : m'.word (a + 4) = .ok (UInt16.ofNat (withBit w.toNat (47 - attr.toNat) on))) :
    t.Marks n obj attr on m m' := by
  obtain ⟨hwidth, hlt⟩ := attributeBytes_high hattr hhigh
  have hge := not_lt_32 hhigh
  refine marks_of_changesAt hobj ha hc (by omega) ?_ hattr
  intro c hrange
  rw [testAttribute_eq hrange ha, testAttribute_eq hrange ha]
  by_cases hclow : c < 32
  · rw [if_pos hclow, if_pos hclow, hc.dword (by omega), if_neg]
    rintro rfl
    exact hhigh hclow
  · have hsame : 47 - c.toNat = 47 - attr.toNat ↔ c = attr := by
      have hc' := (attributeBytes_high hrange hclow).2
      rw [← UInt16.toNat_inj]
      omega
    rw [if_neg hclow, if_neg hclow, hw, hw']
    change Except.ok (Nat.testBit _ _) = if c = attr then .ok on else .ok (Nat.testBit _ _)
    rw [testBit_word w (by omega), apply_ite Except.ok]
    simp only [hsame]

theorem Holds.attributes_inside (h : t.Holds n m) (hobj : Numbered n obj) (ha : t.entry obj = .ok a) :
    a + t.attributeBytes ≤ m.bytes.size := by
  have hi := h.inside obj a hobj ha
  rw [attributeBytes]
  obtain ⟨-, hl⟩ | ⟨-, hl⟩ := t.layout_cases
  all_goals
    rw [hl] at hi ⊢
    simp only [Layout.early, Layout.late, Memory.size] at hi ⊢
    omega

theorem putAttribute_ok (on : Bool) (h : t.Holds n m) (hobj : Numbered n obj)
    (hattr : attr.toNat < t.layout.attributeCount) :
    ∃ m', t.putAttribute obj attr on m = .ok () m' ∧ t.Marks n obj attr on m m' := by
  obtain ⟨a, ha⟩ : ∃ a, t.entry obj = .ok a := ⟨_, h.entry_eq hobj⟩
  have hinside := h.attributes_inside hobj ha
  have hentry : Action.reading (fun _ => t.entry obj) m = .ok a m := reading_ok ha
  rw [putAttribute, if_neg (Nat.not_le.2 hattr), bind_ok _ hentry]
  by_cases hlow : attr < 32
  · have hwidth := t.attributeBytes_low
    obtain ⟨d, hd⟩ := Memory.dword_of_lt (m := m) (a := a) (by omega)
    have hflags : Action.reading (Memory.dword · a) m = .ok d m := reading_ok hd
    rw [if_pos hlow, bind_ok _ hflags]
    obtain ⟨m', hset, hc, hd'⟩ := Memory.setDword_ok (m := m) (a := a) _ (by omega)
    exact ⟨m', hset, marks_of_dword hobj ha hlow hd hc hd'⟩
  · have hwidth := (attributeBytes_high hattr hlow).1
    obtain ⟨w, hw⟩ := Memory.word_of_lt (m := m) (a := a + 4) (by omega)
    have hflags : Action.reading (Memory.word · (a + 4)) m = .ok w m := reading_ok hw
    rw [if_neg hlow, bind_ok _ hflags]
    obtain ⟨m', hset, hc, hw'⟩ := Memory.setWord_ok (m := m) (a := a + 4) _ (by omega)
    exact ⟨m', hset, marks_of_word hobj ha hattr hlow hw hc hw'⟩

theorem testAttribute_ok (h : t.Holds n m) (hobj : Numbered n obj) (attr : UInt16) :
    ∃ v, t.testAttribute m obj attr = .ok v := by
  by_cases hattr : attr.toNat < t.layout.attributeCount
  · obtain ⟨a, ha⟩ : ∃ a, t.entry obj = .ok a := ⟨_, h.entry_eq hobj⟩
    have hinside := h.attributes_inside hobj ha
    rw [testAttribute_eq hattr ha]
    by_cases hlow : attr < 32
    · have hwidth := t.attributeBytes_low
      obtain ⟨d, hd⟩ := Memory.dword_of_lt (m := m) (a := a) (by omega)
      rw [if_pos hlow, hd]
      exact ⟨_, rfl⟩
    · have hwidth := (attributeBytes_high hattr hlow).1
      obtain ⟨w, hw⟩ := Memory.word_of_lt (m := m) (a := a + 4) (by omega)
      rw [if_neg hlow, hw]
      exact ⟨_, rfl⟩
  · exact ⟨false, testAttribute_of_le (by omega)⟩

-- Attributes and links do not share a byte, so that a change of the ones is none of the others.
theorem relation_of_attributes (hc : Memory.ChangesWithin (t.AttributeByte n) m m') (x : UInt16) (r : Relation) :
    t.relation m' x r = t.relation m x r := by
  apply relation_congr hc
  rintro a b ha hab hab' ⟨obj, c, -, hentry, hcb, hcb'⟩
  have hapart := attributes_apart hentry ha
  omega

theorem testAttribute_of_links (hc : Memory.ChangesWithin (t.LinkByte n) m m') (x attr : UInt16) :
    t.testAttribute m' x attr = t.testAttribute m x attr := by
  apply testAttribute_congr hc
  rintro a b ha hab hab' ⟨obj, r, c, -, haddress, hcb, hcb'⟩
  have hapart := attributes_apart ha haddress
  omega

theorem Holds.of_attributes (h : t.Holds n m) (hc : Memory.ChangesWithin (t.AttributeByte n) m m') :
    t.Holds n m' := by
  have hsize : m'.size = m.size := hc.size
  refine ⟨h.narrow, ?_, ?_⟩
  · intro x a hx ha
    rw [hsize]
    exact h.inside x a hx ha
  · intro x r v hx hv
    rw [relation_of_attributes hc] at hv
    exact h.closed x r v hx hv

theorem attributes_of_snapshot {o : ObjectSnapshot} (h : t.snapshot m obj = .ok o) :
    o.attributeCount = t.layout.attributeCount ∧ ∃ a d, t.entry obj = .ok a ∧ m.dword a = .ok d ∧
      ((t.layout = .early ∧ o.attributes = d.toNat) ∨
        (t.layout = .late ∧ ∃ w, m.word (a + 4) = .ok w ∧ o.attributes = 2 ^ 16 * d.toNat + w.toNat)) := by
  -- the rest of the snapshot is the same for both layouts
  have finish {flags : Nat} (h : (do
      let parent ← t.parent m obj
      let sibling ← t.sibling m obj
      let child ← t.child m obj
      let table ← t.propertyTable m obj
      let properties ← t.properties m obj
      return ⟨obj, flags, t.layout.attributeCount, parent, sibling, child, table, properties⟩) =
        Except.ok o) : o.attributeCount = t.layout.attributeCount ∧ o.attributes = flags := by
    obtain ⟨parent, -, h⟩ := ok_of_bind_except h
    obtain ⟨sibling, -, h⟩ := ok_of_bind_except h
    obtain ⟨child, -, h⟩ := ok_of_bind_except h
    obtain ⟨table, -, h⟩ := ok_of_bind_except h
    obtain ⟨properties, -, ⟨⟩⟩ := ok_of_bind_except h
    exact ⟨rfl, rfl⟩
  obtain ⟨a, ha, h⟩ := ok_of_bind_except h
  obtain ⟨d, hd, h⟩ := ok_of_bind_except h
  dsimp only at h
  obtain ⟨-, hl⟩ | ⟨-, hl⟩ := t.layout_cases
  · rw [if_neg (by rw [hl]; decide)] at h
    obtain ⟨hcount, hflags⟩ := finish h
    exact ⟨hcount, a, d, ha, hd, .inl ⟨hl, hflags⟩⟩
  · rw [if_pos (by rw [hl]; decide)] at h
    obtain ⟨w, hw, h⟩ := ok_of_bind_except h
    obtain ⟨hcount, hflags⟩ := finish h
    rw [Nat.mul_comm] at hflags
    exact ⟨hcount, a, d, ha, hd, .inr ⟨hl, w, hw, hflags⟩⟩

theorem hasAttribute_of_snapshot {o : ObjectSnapshot} (h : t.snapshot m obj = .ok o) (attr : UInt16) :
    t.testAttribute m obj attr = .ok (o.hasAttribute attr.toNat) := by
  obtain ⟨hcount, a, d, ha, hd, hflags⟩ := attributes_of_snapshot h
  rw [ObjectSnapshot.hasAttribute, hcount]
  by_cases hattr : attr.toNat < t.layout.attributeCount
  · rw [testAttribute_eq hattr ha, hd, decide_eq_true hattr, Bool.true_and]
    obtain ⟨hl, hflags⟩ | ⟨hl, w, hw, hflags⟩ := hflags
    · rw [hl] at hattr ⊢
      rw [if_pos (UInt16.lt_iff_toNat_lt.2 hattr), hflags]
      rfl
    · rw [hl] at hattr ⊢
      have hlt : attr.toNat < 48 := hattr
      rw [hw, hflags]
      simp only [Layout.late, Nat.testBit_two_pow_mul_add _ w.toNat_lt]
      by_cases hlow : attr < 32
      · have hlow' := lt_32 hlow
        rw [if_pos hlow, if_neg (by omega), show 48 - 1 - attr.toNat - 16 = 31 - attr.toNat by omega]
        rfl
      · have hhigh := not_lt_32 hlow
        rw [if_neg hlow, if_pos (by omega)]
        rfl
  · rw [testAttribute_of_le (Nat.not_lt.1 hattr), decide_eq_false hattr, Bool.false_and]

end ZMachine.ObjectTable
