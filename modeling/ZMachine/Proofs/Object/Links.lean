import ZMachine.Object.Tree
import ZMachine.Proofs.Memory.Access

namespace ZMachine

def Numbered (n obj : UInt16) : Prop := obj ≠ 0 ∧ obj ≤ n

instance (n obj : UInt16) : Decidable (Numbered n obj) := inferInstanceAs (Decidable (_ ∧ _))

theorem Numbered.toNat {n obj : UInt16} (h : Numbered n obj) : 0 < obj.toNat ∧ obj.toNat ≤ n.toNat := by
  constructor
  · apply Nat.pos_of_ne_zero
    intro h0
    exact h.1 (UInt16.toNat_inj.1 h0)
  · exact UInt16.le_iff_toNat_le.1 h.2

namespace ObjectTable

variable {t : ObjectTable} {n obj : UInt16} {m : Memory}

/-- The objects from 1 to `n` have their whole entries inside the image, and name no others. -/
structure Holds (t : ObjectTable) (n : UInt16) (m : Memory) : Prop where
  narrow : t.version ≤ 3 → n ≤ 255
  inside : ∀ obj a, Numbered n obj → t.entry obj = .ok a → a + t.layout.entrySize ≤ m.size
  closed : ∀ obj r v, Numbered n obj → t.relation m obj r = .ok v → v ≤ n

def field (t : ObjectTable) (obj : UInt16) (r : Relation) : Nat :=
  t.base + t.layout.defaultProperties * 2 + (obj.toNat - 1) * t.layout.entrySize +
    t.layout.parentOffset + r.index * t.layout.relationWidth

theorem layout_cases (t : ObjectTable) :
    (t.version ≤ 3 ∧ t.layout = .early) ∨ (¬ t.version ≤ 3 ∧ t.layout = .late) := by
  by_cases h : t.version ≤ 3
  · exact .inl ⟨h, if_pos h⟩
  · exact .inr ⟨h, if_neg h⟩

theorem field_apart {x y : UInt16} {r s : Relation} (hx : x ≠ 0) (hy : y ≠ 0)
    (h : ¬ (y = x ∧ s = r)) :
    t.field y s + t.layout.relationWidth ≤ t.field x r ∨
      t.field x r + t.layout.relationWidth ≤ t.field y s := by
  have hx' : x.toNat ≠ 0 := fun e => hx (UInt16.toNat_inj.1 e)
  have hy' : y.toNat ≠ 0 := fun e => hy (UInt16.toNat_inj.1 e)
  have hxy : ¬ (y.toNat = x.toNat ∧ s = r) := by
    rwa [UInt16.toNat_inj]
  obtain ⟨-, hl⟩ | ⟨-, hl⟩ := t.layout_cases
  all_goals
    rw [field, field, hl]
    cases r <;> cases s <;> simp only [reduceCtorEq, and_true, and_false, not_false_eq_true] at hxy <;>
      simp only [Layout.early, Layout.late, Relation.index] <;> omega

namespace Holds

theorem entry_eq (h : t.Holds n m) (hx : Numbered n obj) :
    t.entry obj = .ok (t.base + t.layout.defaultProperties * 2 + (obj.toNat - 1) * t.layout.entrySize) := by
  apply if_neg
  rintro (h0 | ⟨hw, hbig⟩)
  · exact hx.1 h0
  · obtain ⟨hv, -⟩ | ⟨-, hl⟩ := t.layout_cases
    · have hn := UInt16.le_iff_toNat_le.1 (h.narrow hv)
      have hobj := hx.toNat
      have hbig' := UInt16.lt_iff_toNat_lt.1 hbig
      omega
    · rw [hl] at hw
      cases hw

theorem relationAddress_eq (h : t.Holds n m) (hx : Numbered n obj) (r : Relation) :
    t.relationAddress obj r = .ok (t.field obj r) := by
  rw [relationAddress, h.entry_eq hx]
  rfl

theorem field_inside (h : t.Holds n m) (hx : Numbered n obj) (r : Relation) :
    t.field obj r + t.layout.relationWidth ≤ m.bytes.size := by
  have hi := h.inside obj _ hx (h.entry_eq hx)
  obtain ⟨-, hl⟩ | ⟨-, hl⟩ := t.layout_cases
  all_goals
    rw [hl] at hi
    rw [field, hl]
    cases r <;> simp only [Layout.early, Layout.late, Relation.index, Memory.size] at hi ⊢ <;> omega

theorem relation_eq (h : t.Holds n m) (hx : Numbered n obj) (r : Relation) (m' : Memory) :
    t.relation m' obj r = if t.layout.relationWidth = 1 then UInt8.toUInt16 <$> m'.byte (t.field obj r)
      else m'.word (t.field obj r) := by
  rw [relation, h.relationAddress_eq hx]
  rfl

theorem relation_ok (h : t.Holds n m) (hx : Numbered n obj) (r : Relation) :
    ∃ v, t.relation m obj r = .ok v ∧ v ≤ n := by
  have hi := h.field_inside hx r
  have hr : ∃ v, t.relation m obj r = .ok v := by
    rw [h.relation_eq hx]
    obtain ⟨-, hl⟩ | ⟨-, hl⟩ := t.layout_cases
    · rw [hl] at hi ⊢
      obtain ⟨b, hb⟩ := Memory.byte_of_lt hi
      rw [hb]
      exact ⟨b.toUInt16, rfl⟩
    · rw [hl] at hi ⊢
      exact Memory.word_of_lt hi
  obtain ⟨v, hv⟩ := hr
  exact ⟨v, hv, h.closed obj r v hx hv⟩

end Holds

structure Assigns (t : ObjectTable) (n obj : UInt16) (r : Relation) (v : UInt16) (m m' : Memory) : Prop where
  holds : t.Holds n m'
  here : t.relation m' obj r = .ok v
  other : ∀ {x s}, Numbered n x → ¬ (x = obj ∧ s = r) → t.relation m' x s = t.relation m x s

theorem assigns_of_changesAt {r : Relation} {v : UInt16} {m' : Memory} (h : t.Holds n m)
    (hx : Numbered n obj) (hv : v ≤ n)
    (hc : Memory.ChangesAt (t.field obj r) t.layout.relationWidth m m')
    (here : t.relation m' obj r = .ok v) : t.Assigns n obj r v m m' := by
  have other : ∀ {x s}, Numbered n x → ¬ (x = obj ∧ s = r) → t.relation m' x s = t.relation m x s := by
    intro x s hxn hne
    have hapart := t.field_apart hx.1 hxn.1 hne
    rw [h.relation_eq hxn, h.relation_eq hxn]
    obtain ⟨-, hl⟩ | ⟨-, hl⟩ := t.layout_cases
    · rw [hl] at hapart hc ⊢
      simp only [Layout.early, ↓reduceIte] at hapart hc ⊢
      rw [hc.byte _ (by omega)]
    · rw [hl] at hapart hc ⊢
      exact hc.word hapart
  have hsize : m'.size = m.size := hc.size
  refine ⟨⟨h.narrow, ?_, ?_⟩, here, other⟩
  · intro x a hxn ha
    rw [hsize]
    exact h.inside x a hxn ha
  · intro x s w hxn hw
    by_cases hxs : x = obj ∧ s = r
    · obtain ⟨rfl, rfl⟩ := hxs
      rw [here] at hw
      cases hw
      exact hv
    · rw [other hxn hxs] at hw
      exact h.closed x s w hxn hw

theorem toUInt16_toUInt8 {v : UInt16} (h : v ≤ 255) : v.toUInt8.toUInt16 = v := by
  apply UInt16.toNat_inj.1
  have hv := UInt16.le_iff_toNat_le.1 h
  simp only [UInt16.reduceToNat] at hv
  simp only [UInt8.toNat_toUInt16, UInt16.toNat_toUInt8]
  omega

theorem setRelation_ok {r : Relation} {v : UInt16} (h : t.Holds n m) (hx : Numbered n obj) (hv : v ≤ n) :
    ∃ m', t.setRelation obj r v m = .ok () m' ∧ t.Assigns n obj r v m m' := by
  have hi := h.field_inside hx r
  have ha : Action.reading (fun _ => t.relationAddress obj r) m = .ok (t.field obj r) m :=
    reading_ok (h.relationAddress_eq hx r)
  rw [setRelation, bind_ok _ ha]
  obtain ⟨hver, hl⟩ | ⟨-, hl⟩ := t.layout_cases
  · rw [hl] at hi ⊢
    obtain ⟨m', hset, hc, hb⟩ := Memory.setByte_ok v.toUInt8 hi
    refine ⟨m', hset, assigns_of_changesAt h hx hv ?_ ?_⟩
    · rw [hl]
      exact hc
    · have hv' : v ≤ 255 := UInt16.le_trans hv (h.narrow hver)
      rw [h.relation_eq hx, hl, hb]
      exact congrArg Except.ok (toUInt16_toUInt8 hv')
  · rw [hl] at hi ⊢
    obtain ⟨m', hset, hc, hw⟩ := Memory.setWord_ok v hi
    refine ⟨m', hset, assigns_of_changesAt h hx hv ?_ ?_⟩
    · rw [hl]
      exact hc
    · rw [h.relation_eq hx, hl]
      exact hw

end ObjectTable

end ZMachine
