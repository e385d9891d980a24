import ZMachine.Proofs.Object.Attributes
import ZMachine.Proofs.Object.Relink

namespace ZMachine.ObjectTable

variable {t : ObjectTable} {obj dest p v : UInt16} {m m' : Memory} {r : Relation} {e : Fault}

def Present (t : ObjectTable) (m : Memory) (obj : UInt16) (r : Relation) : Prop :=
  ∃ a, t.relationAddress obj r = .ok a ∧ a + t.layout.relationWidth ≤ m.size

theorem present_of_relation (h : t.relation m obj r = .ok v) : t.Present m obj r := by
  obtain ⟨a, ha, h⟩ := ok_of_bind_except h
  refine ⟨a, ha, ?_⟩
  obtain ⟨-, hl⟩ | ⟨-, hl⟩ := t.layout_cases
  · rw [hl] at h ⊢
    obtain ⟨b, hb, -⟩ := ok_of_map h
    exact Memory.byte_inside hb
  · rw [hl] at h ⊢
    exact Memory.word_inside h

namespace Present

theorem of_sameSize (h : t.Present m obj r) (hs : m.SameSize m') : t.Present m' obj r := by
  obtain ⟨a, ha, hi⟩ := h
  have hsize : m'.size = m.size := hs
  exact ⟨a, ha, by rwa [hsize]⟩

theorem relation (h : t.Present m obj r) : ∃ v, t.relation m obj r = .ok v := by
  obtain ⟨a, ha, hi⟩ := h
  rw [ObjectTable.relation, ha]
  obtain ⟨-, hl⟩ | ⟨-, hl⟩ := t.layout_cases
  · rw [hl] at hi ⊢
    obtain ⟨b, hb⟩ := Memory.byte_of_lt hi
    exact ⟨b.toUInt16, congrArg (UInt8.toUInt16 <$> ·) hb⟩
  · rw [hl] at hi ⊢
    exact Memory.word_of_lt hi

theorem setRelation (h : t.Present m obj r) (v : UInt16) :
    ∃ a m', t.relationAddress obj r = .ok a ∧ t.setRelation obj r v m = .ok () m' ∧
      Memory.ChangesAt a t.layout.relationWidth m m' ∧
      (v ≤ 255 → t.relation m' obj r = .ok v) := by
  obtain ⟨a, ha, hi⟩ := h
  have hread : Action.reading (fun _ => t.relationAddress obj r) m = .ok a m := reading_ok ha
  rw [ObjectTable.setRelation, bind_ok _ hread]
  simp only [ObjectTable.relation, ha]
  obtain ⟨-, hl⟩ | ⟨-, hl⟩ := t.layout_cases
  · rw [hl] at hi ⊢
    obtain ⟨m', hset, hc, hb⟩ := Memory.setByte_ok v.toUInt8 hi
    refine ⟨a, m', rfl, hset, hc, fun hv => ?_⟩
    change UInt8.toUInt16 <$> m'.byte a = .ok v
    rw [hb]
    exact congrArg Except.ok (toUInt16_toUInt8 hv)
  · rw [hl] at hi ⊢
    obtain ⟨m', hset, hc, hw⟩ := Memory.setWord_ok v hi
    exact ⟨a, m', rfl, hset, hc, fun _ => hw⟩

end Present

theorem setRelation_of_absent (h : ¬ t.Present m obj r) : ∃ e, t.setRelation obj r v m = .error e m := by
  cases ha : t.relationAddress obj r with
  | error e =>
    have hread : Action.reading (fun _ => t.relationAddress obj r) m = .error e m := reading_error ha
    exact ⟨e, bind_error _ hread⟩
  | ok a =>
    have hread : Action.reading (fun _ => t.relationAddress obj r) m = .ok a m := reading_ok ha
    rw [setRelation, bind_ok _ hread]
    have hi : ¬ a + t.layout.relationWidth ≤ m.size := fun hi => h ⟨a, ha, hi⟩
    obtain ⟨-, hl⟩ | ⟨-, hl⟩ := t.layout_cases
    · rw [hl] at hi ⊢
      exact ⟨_, dif_neg hi⟩
    · rw [hl] at hi ⊢
      exact ⟨_, dif_neg hi⟩

theorem sibling_of_elderSibling {first elder : UInt16} {left : Nat}
    (h : t.elderSibling m p obj left first = .ok elder) : t.sibling m elder = .ok obj := by
  induction left generalizing first with
  | zero => cases h
  | succ left ih =>
    rw [elderSibling] at h
    split at h
    · cases h
    · obtain ⟨next, hnext, h⟩ := ok_of_bind_except h
      split at h
      · next heq =>
        cases h
        rw [hnext, heq]
      · exact ih h

theorem clear_ok (hparent : t.Present m obj .parent) (hsibling : t.Present m obj .sibling) :
    ∃ m', (do t.setRelation obj .parent 0; t.setRelation obj .sibling 0) m = .ok () m' ∧
      m.SameSize m' ∧ t.parent m' obj = .ok 0 := by
  obtain ⟨a, m₁, ha, hset₁, hc₁, hzero⟩ := hparent.setRelation 0
  obtain ⟨b, m₂, hb, hset₂, hc₂, -⟩ := (hsibling.of_sameSize hc₁.size).setRelation 0
  refine ⟨m₂, by rw [bind_ok _ hset₁, hset₂], hc₂.size.trans hc₁.size, ?_⟩
  -- the sibling field follows the parent field
  obtain ⟨c, hc, rfl⟩ := relationAddress_ok ha
  obtain ⟨_, hc', rfl⟩ := relationAddress_ok hb
  cases hc.symm.trans hc'
  have hwithin := hc₂.within (P := fun d => c + t.layout.parentOffset + t.layout.relationWidth ≤ d)
    fun d hd _ => by simpa [Relation.index] using hd
  rw [parent, relation_congr hwithin, hzero (by decide)]
  intro a' d ha' _ hd
  cases ha.symm.trans ha'
  simp only [Relation.index, Nat.zero_mul, Nat.add_zero] at hd
  omega

def detach (t : ObjectTable) (obj x : UInt16) (r : Relation) (next : UInt16) : Action Memory Unit := do
  t.setRelation x r next
  t.setRelation obj .parent 0
  t.setRelation obj .sibling 0

theorem detach_ok {x : UInt16} (next : UInt16) (hx : t.Present m x r) (hparent : t.Present m obj .parent)
    (hsibling : t.Present m obj .sibling) :
    ∃ m', t.detach obj x r next m = .ok () m' ∧ m.SameSize m' ∧ t.parent m' obj = .ok 0 := by
  obtain ⟨_, m₁, -, hset, hc, -⟩ := hx.setRelation next
  obtain ⟨m₂, hclear, hsize, hzero⟩ := clear_ok (hparent.of_sameSize hc.size) (hsibling.of_sameSize hc.size)
  exact ⟨m₂, by rw [detach, bind_ok _ hset, hclear], hsize.trans hc.size, hzero⟩

section Removal

variable {next first : UInt16}

theorem remove_of_first (hparent : t.parent m obj = .ok p) (hp : p ≠ 0) (hsibling : t.sibling m obj = .ok next)
    (hfirst : t.child m p = .ok obj) : t.remove obj m = t.detach obj p .child next m := by
  rw [remove, bind_ok _ (reading_ok (f := (t.parent · obj)) hparent), if_neg hp,
    bind_ok _ (reading_ok (f := (t.sibling · obj)) hsibling),
    bind_ok _ (reading_ok (f := (t.child · p)) hfirst), if_pos rfl]
  rfl

theorem remove_of_later (hparent : t.parent m obj = .ok p) (hp : p ≠ 0) (hsibling : t.sibling m obj = .ok next)
    (hfirst : t.child m p = .ok first) (hne : first ≠ obj) :
    t.remove obj m = (do
      let elder ← Action.reading (t.elderSibling · p obj 65535 first)
      t.detach obj elder .sibling next) m := by
  rw [remove, bind_ok _ (reading_ok (f := (t.parent · obj)) hparent), if_neg hp,
    bind_ok _ (reading_ok (f := (t.sibling · obj)) hsibling),
    bind_ok _ (reading_ok (f := (t.child · p)) hfirst), if_neg hne]
  rfl

theorem remove_of_error (hparent : t.parent m obj = .ok p) (hp : p ≠ 0) (hsibling : t.sibling m obj = .ok next)
    (hfirst : t.child m p = .error e) : t.remove obj m = .error e m := by
  rw [remove, bind_ok _ (reading_ok (f := (t.parent · obj)) hparent), if_neg hp,
    bind_ok _ (reading_ok (f := (t.sibling · obj)) hsibling),
    bind_error _ (reading_error (f := (t.child · p)) hfirst)]

end Removal

theorem remove_cases (t : ObjectTable) (obj : UInt16) (m : Memory) :
    (∃ e, t.remove obj m = .error e m) ∨ (t.parent m obj = .ok 0 ∧ t.remove obj m = .ok () m) ∨
      ∃ p m', t.parent m obj = .ok p ∧ p ≠ 0 ∧ t.Present m obj .sibling ∧
        t.remove obj m = .ok () m' ∧ m.SameSize m' ∧ t.parent m' obj = .ok 0 := by
  cases hparent : t.parent m obj with
  | error e => exact .inl ⟨e, bind_error _ (reading_error (f := (t.parent · obj)) hparent)⟩
  | ok p =>
  by_cases hp : p = 0
  · subst hp
    refine .inr (.inl ⟨rfl, ?_⟩)
    rw [remove, bind_ok _ (reading_ok (f := (t.parent · obj)) hparent)]
    rfl
  have hparent' := present_of_relation hparent
  cases hsibling : t.sibling m obj with
  | error e =>
    left
    rw [remove, bind_ok _ (reading_ok (f := (t.parent · obj)) hparent), if_neg hp,
      bind_error _ (reading_error (f := (t.sibling · obj)) hsibling)]
    exact ⟨e, rfl⟩
  | ok next =>
  have hsibling' := present_of_relation hsibling
  cases hfirst : t.child m p with
  | error e => exact .inl ⟨e, remove_of_error hparent hp hsibling hfirst⟩
  | ok first =>
  by_cases hf : first = obj
  · subst hf
    rw [remove_of_first hparent hp hsibling hfirst]
    obtain ⟨m', hm', hsize, hzero⟩ := detach_ok next (present_of_relation hfirst) hparent' hsibling'
    exact .inr (.inr ⟨p, m', rfl, hp, hsibling', hm', hsize, hzero⟩)
  · rw [remove_of_later hparent hp hsibling hfirst hf]
    cases helder : t.elderSibling m p obj 65535 first with
    | error e =>
      exact .inl ⟨e, bind_error _ (reading_error (f := (t.elderSibling · p obj 65535 first)) helder)⟩
    | ok elder =>
      rw [bind_ok _ (reading_ok (f := (t.elderSibling · p obj 65535 first)) helder)]
      have helder' := present_of_relation (sibling_of_elderSibling helder)
      obtain ⟨m', hm', hsize, hzero⟩ := detach_ok next helder' hparent' hsibling'
      exact .inr (.inr ⟨p, m', rfl, hp, hsibling', hm', hsize, hzero⟩)

theorem adopt_ok (first : UInt16) (hparent : t.Present m obj .parent)
    (hsibling : t.Present m obj .sibling) (hchild : t.Present m dest .child) :
    ∃ m', (do t.setRelation obj .sibling first; t.setRelation obj .parent dest
              t.setRelation dest .child obj) m = .ok () m' := by
  obtain ⟨_, m₁, -, hset₁, hc₁, -⟩ := hsibling.setRelation first
  obtain ⟨_, m₂, -, hset₂, hc₂, -⟩ := (hparent.of_sameSize hc₁.size).setRelation dest
  have hsize : m.SameSize m₂ := hc₂.size.trans hc₁.size
  obtain ⟨_, m₃, -, hset₃, -⟩ := (hchild.of_sameSize hsize).setRelation obj
  exact ⟨m₃, by rw [bind_ok _ hset₁, bind_ok _ hset₂, hset₃]⟩

theorem insert_error_cases (h : t.insert obj dest m = .error e m') :
    m' = m ∨ (obj ≠ dest ∧ (∃ a, t.entry dest = .ok a) ∧ ¬ t.Present m dest .child ∧
      t.parent m obj ≠ .ok 0 ∧ t.remove obj m = .ok () m') := by
  rw [insert] at h
  by_cases hne : obj = dest
  · rw [if_pos hne] at h
    cases h
    exact .inl rfl
  rw [if_neg hne] at h
  dsimp only at h
  cases hentry : t.entry dest with
  | error f =>
    rw [bind_error _ (reading_error (f := fun _ => t.entry dest) hentry)] at h
    cases h
    exact .inl rfl
  | ok a =>
  rw [bind_ok _ (reading_ok (f := fun _ => t.entry dest) hentry)] at h
  obtain ⟨f, hremove⟩ | ⟨hzero, hremove⟩ | ⟨p, m₁, hparent, hp, hsibling, hremove, hsize, hzero⟩ :=
    remove_cases t obj m
  · rw [bind_error _ hremove] at h
    cases h
    exact .inl rfl
  · left
    rw [bind_ok _ hremove] at h
    cases hchild : t.child m dest with
    | error f =>
      rw [bind_error _ (reading_error (f := (t.child · dest)) hchild)] at h
      cases h
      rfl
    | ok first =>
      rw [bind_ok _ (reading_ok (f := (t.child · dest)) hchild)] at h
      -- nothing has been written yet, so that a missing sibling field leaves all as it was
      by_cases hsibling : t.Present m obj .sibling
      · obtain ⟨m₂, hm₂⟩ := adopt_ok first (present_of_relation hzero) hsibling
          (present_of_relation hchild)
        cases hm₂.symm.trans h
      · obtain ⟨f, hset⟩ := setRelation_of_absent (v := first) hsibling
        rw [bind_error _ hset] at h
        cases h
        rfl
  · right
    rw [bind_ok _ hremove] at h
    have hchild : ¬ t.Present m dest .child := by
      intro hchild
      obtain ⟨first, hfirst⟩ := (hchild.of_sameSize hsize).relation
      rw [bind_ok _ (reading_ok (f := (t.child · dest)) hfirst)] at h
      obtain ⟨m₂, hm₂⟩ := adopt_ok first ((present_of_relation hparent).of_sameSize hsize)
        (hsibling.of_sameSize hsize) (hchild.of_sameSize hsize)
      cases hm₂.symm.trans h
    refine ⟨hne, ⟨a, rfl⟩, hchild, by simpa [hparent] using hp, ?_⟩
    cases hfirst : t.child m₁ dest with
    | ok first =>
      have hsize' : m₁.SameSize m := hsize.symm
      exact absurd ((present_of_relation hfirst).of_sameSize hsize') hchild
    | error f =>
      rw [bind_error _ (reading_error (f := (t.child · dest)) hfirst)] at h
      cases h
      exact hremove

/-- A failed insertion leaves memory as it was, unless the new parent has an entry by its number of
which the child field lies outside the image: then an object that has a parent, and can be taken out
of its place, has been taken out. -/
theorem memory_of_insert_error (h : t.insert obj dest m = .error e m') :
    (t.Present m dest .child ∨ (∃ f, t.entry dest = .error f) → m' = m) ∧
      (m' ≠ m ↔ obj ≠ dest ∧ (∃ a, t.entry dest = .ok a) ∧ ¬ t.Present m dest .child ∧
        t.parent m obj ≠ .ok 0 ∧ t.remove obj m = .ok () m') := by
  constructor
  · intro hdest
    obtain hsame | ⟨-, ⟨a, ha⟩, hchild, -⟩ := insert_error_cases h
    · exact hsame
    · obtain hpresent | ⟨f, hf⟩ := hdest
      · exact absurd hpresent hchild
      · rw [ha] at hf
        cases hf
  · constructor
    · intro hne
      obtain hsame | hmoved := insert_error_cases h
      · exact absurd hsame hne
      · exact hmoved
    · rintro ⟨-, -, -, hparent, hremove⟩ rfl
      obtain ⟨f, hr⟩ | ⟨hzero, -⟩ | ⟨p, m₁, -, -, -, hr, -, hzero⟩ := remove_cases t obj m'
      · cases hr.symm.trans hremove
      · exact hparent hzero
      · cases hr.symm.trans hremove
        exact hparent hzero

def strayWorld : Memory :=
  -- Object 5 names 1 as its parent and is not among its children.
  smallWorld.set 104 1 (by decide)

theorem memory_of_insert_error_stray :
    smallTable.Present strayWorld 2 .child ∧
      smallTable.insert 5 2 strayWorld = .error (.malformedTree (.notAChild 5 1)) strayWorld := by
  have hpresent : smallTable.Present strayWorld 2 .child := ⟨79, rfl, by decide⟩
  have hinsert : smallTable.insert 5 2 strayWorld = .error (.malformedTree (.notAChild 5 1))
      (ending (smallTable.insert 5 2 strayWorld)) := rfl
  obtain ⟨hsame, -⟩ := memory_of_insert_error hinsert
  rw [hsame (.inl hpresent)] at hinsert
  exact ⟨hpresent, hinsert⟩

theorem insert_error_loses_child :
    ∃ m', smallTable.insert 3 200 smallWorld = .error (.memory 1861 1 109) m' ∧
      smallTable.Children smallWorld 1 [2, 3, 4] ∧ smallTable.Children m' 1 [2, 4] ∧
      smallTable.parent smallWorld 3 = .ok 1 ∧ smallTable.parent m' 3 = .ok 0 := by
  refine ⟨ending (smallTable.insert 3 200 smallWorld), rfl, children_smallWorld, ?_, rfl, rfl⟩
  exact ⟨2, rfl, rfl, 4, rfl, rfl, 0, rfl, rfl⟩

end ZMachine.ObjectTable
