import ZMachine.Proofs.Object.Attributes
import ZMachine.Proofs.Object.Relink

namespace ZMachine.ObjectTable

variable {t : ObjectTable} {n obj attr : UInt16} {m m' : Memory} {r : Relation}

def Relinks (t : ObjectTable) (n : UInt16) (m m' : Memory) : Prop :=
  t.Holds n m → t.Holds n m' ∧ Memory.ChangesWithin (t.LinkByte n) m m'

instance : IsPreorder Memory (t.Relinks n) where
  refl m h := ⟨h, Std.Refl.refl m⟩
  trans _ _ _ h h' hm :=
    ⟨(h' (h hm).1).1, IsTrans.trans _ _ _ (h hm).2 (h' (h hm).1).2⟩

theorem relinks_of_holds {act : Action Memory Unit}
    (h : ∀ m, t.Holds n m → t.Relinks n m (ending (act m))) : Leads (t.Relinks n) act :=
  fun m hm => h m hm hm

theorem setRelation_relinks {v : UInt16} (hobj : Numbered n obj) (hv : v ≤ n) :
    Leads (t.Relinks n) (t.setRelation obj r v) := by
  intro m h
  have haddress := h.relationAddress_eq hobj r
  obtain ⟨m', hset, ha⟩ := setRelation_ok (r := r) h hobj hv
  rw [hset]
  refine ⟨ha.holds, ?_⟩
  have hwritten : Memory.ChangesAt (t.field obj r) t.layout.relationWidth m m' := by
    have hread : Action.reading (fun _ => t.relationAddress obj r) m = .ok (t.field obj r) m :=
      reading_ok haddress
    rw [setRelation, bind_ok _ hread] at hset
    obtain ⟨-, hl⟩ | ⟨-, hl⟩ := t.layout_cases
    · rw [hl] at hset ⊢
      exact Memory.setByte_changes hset
    · rw [hl] at hset ⊢
      exact Memory.setWord_changes hset
  apply hwritten.within
  intro b hb hb'
  exact ⟨obj, r, _, hobj, haddress, hb, hb'⟩

theorem elderSibling_numbered {p first e : UInt16} {left : Nat} (h : t.Holds n m) (hfirst : first ≤ n)
    (he : t.elderSibling m p obj left first = .ok e) : Numbered n e := by
  induction left generalizing first with
  | zero => cases he
  | succ left ih =>
    rw [elderSibling] at he
    split at he
    · cases he
    · next hne =>
      obtain ⟨next, hnext, he⟩ := ok_of_bind_except he
      split at he
      · cases he
        exact ⟨hne, hfirst⟩
      · exact ih (h.closed first .sibling next ⟨hne, hfirst⟩ hnext) he

theorem remove_relinks (hobj : Numbered n obj) : Leads (t.Relinks n) (t.remove obj) := by
  refine relinks_of_holds fun m h => ?_
  -- all that is written was read from a link before, or is 0
  have hzero : (0 : UInt16) ≤ n := UInt16.zero_le
  refine ending_reading_bind fun parent hparent => ?_
  split
  · exact Std.Refl.refl m
  next hne =>
  have hp : Numbered n parent := ⟨hne, h.closed obj .parent parent hobj hparent⟩
  refine ending_reading_bind fun sibling hsibling => ?_
  have hs : sibling ≤ n := h.closed obj .sibling sibling hobj hsibling
  refine ending_reading_bind fun first hfirst => ?_
  have hf : first ≤ n := h.closed parent .child first hp hfirst
  have rest : Leads (t.Relinks n) (do
      t.setRelation obj .parent 0
      t.setRelation obj .sibling 0) :=
    .bind (setRelation_relinks hobj hzero) fun _ => setRelation_relinks hobj hzero
  split
  · exact Leads.bind (setRelation_relinks hp hs) (fun _ => rest) m
  · refine ending_reading_bind fun elder helder => ?_
    have he : Numbered n elder := elderSibling_numbered h hf helder
    exact Leads.bind (setRelation_relinks he hs) (fun _ => rest) m

theorem insert_relinks {dest : UInt16} (hobj : Numbered n obj) (hdest : Numbered n dest) :
    Leads (t.Relinks n) (t.insert obj dest) := by
  have link : Leads (t.Relinks n) (do
      let first ← Action.reading (t.child · dest)
      t.setRelation obj .sibling first
      t.setRelation obj .parent dest
      t.setRelation dest .child obj) := by
    refine relinks_of_holds fun m h => ending_reading_bind fun first hfirst => ?_
    have hf : first ≤ n := h.closed dest .child first hdest hfirst
    exact Leads.bind (setRelation_relinks hobj hf) (fun _ => .bind (setRelation_relinks hobj hdest.2) fun _ =>
      setRelation_relinks hdest hobj.2) m
  have move : Leads (t.Relinks n) (do
      let _ ← Action.reading fun _ => t.entry dest
      t.remove obj
      let first ← Action.reading (t.child · dest)
      t.setRelation obj .sibling first
      t.setRelation obj .parent dest
      t.setRelation dest .child obj) :=
    .bind (.reading _) fun _ => .bind (remove_relinks hobj) fun _ => link
  unfold insert
  split
  · exact .bind (.throw _) fun _ => move
  · exact move

theorem putAttribute_within (on : Bool) (h : t.Holds n m) (hobj : Numbered n obj) :
    Memory.ChangesWithin (t.AttributeByte n) m (ending (t.putAttribute obj attr on m)) := by
  by_cases hattr : attr.toNat < t.layout.attributeCount
  · obtain ⟨m', hput, hmarks⟩ := putAttribute_ok on h hobj hattr
    rw [hput]
    exact hmarks.within
  · rw [putAttribute_of_le (Nat.not_lt.1 hattr)]
    exact Std.Refl.refl m

theorem testAttribute_putAttribute {x c : UInt16} {v : Bool} (on : Bool) (h : t.Holds n m) (hx : Numbered n x)
    (hattr : attr.toNat < t.layout.attributeCount) (hv : t.testAttribute m obj attr = .ok v) :
    t.testAttribute (ending (t.putAttribute x c on m)) obj attr =
      .ok ((if x = obj ∧ c = attr then some on else none).getD v) := by
  by_cases hc : c.toNat < t.layout.attributeCount
  · obtain ⟨m', hput, hmarks⟩ := putAttribute_ok on h hx hc
    rw [hput]
    by_cases hsame : x = obj ∧ c = attr
    · rw [if_pos hsame, ← hsame.1, ← hsame.2]
      exact hmarks.here
    · rw [if_neg hsame]
      exact (hmarks.other fun he => hsame ⟨he.1.symm, he.2.symm⟩).trans hv
  · have hother : ¬ (x = obj ∧ c = attr) := by
      rintro ⟨-, rfl⟩
      exact hc hattr
    rw [putAttribute_of_le (Nat.not_lt.1 hc), if_neg hother]
    exact hv

/-- What can be done to the attributes and the links of objects. -/
inductive Change where
  | set (obj attr : UInt16)
  | clear (obj attr : UInt16)
  | insert (obj dest : UInt16)
  | remove (obj : UInt16)
  deriving DecidableEq

namespace Change

def apply (t : ObjectTable) : Change → Action Memory Unit
  | set obj attr => t.setAttribute obj attr
  | clear obj attr => t.clearAttribute obj attr
  | insert obj dest => t.insert obj dest
  | remove obj => t.remove obj

def Within (n : UInt16) : Change → Prop
  | set obj _ => Numbered n obj
  | clear obj _ => Numbered n obj
  | insert obj dest => Numbered n obj ∧ Numbered n dest
  | remove obj => Numbered n obj

instance (n : UInt16) : (c : Change) → Decidable (c.Within n)
  | set obj _ => inferInstanceAs (Decidable (Numbered n obj))
  | clear obj _ => inferInstanceAs (Decidable (Numbered n obj))
  | insert obj dest => inferInstanceAs (Decidable (Numbered n obj ∧ Numbered n dest))
  | remove obj => inferInstanceAs (Decidable (Numbered n obj))

def moves : Change → Bool
  | set _ _ => false
  | clear _ _ => false
  | insert _ _ => true
  | remove _ => true

def mark? (obj attr : UInt16) : Change → Option Bool
  | set x c => if x = obj ∧ c = attr then some true else none
  | clear x c => if x = obj ∧ c = attr then some false else none
  | insert _ _ => none
  | remove _ => none

variable {c : Change} {v : Bool}

theorem apply_attributes (hc : c.moves = false) (h : t.Holds n m) (hw : c.Within n) :
    Memory.ChangesWithin (t.AttributeByte n) m (ending (c.apply t m)) := by
  cases c with
  | set obj attr => exact putAttribute_within true h hw
  | clear obj attr => exact putAttribute_within false h hw
  | insert obj dest => cases hc
  | remove obj => cases hc

theorem apply_links (hc : c.moves = true) (hw : c.Within n) : Leads (t.Relinks n) (c.apply t) := by
  cases c with
  | set obj attr => cases hc
  | clear obj attr => cases hc
  | insert obj dest => exact insert_relinks hw.1 hw.2
  | remove obj => exact remove_relinks hw

theorem apply_holds (h : t.Holds n m) (hw : c.Within n) : t.Holds n (ending (c.apply t m)) := by
  cases hc : c.moves with
  | false => exact h.of_attributes (apply_attributes hc h hw)
  | true => exact (apply_links hc hw m h).1

theorem apply_within (h : t.Holds n m) (hw : c.Within n) :
    Memory.ChangesWithin (fun b => t.AttributeByte n b ∨ t.LinkByte n b) m (ending (c.apply t m)) := by
  cases hc : c.moves with
  | false => exact (apply_attributes hc h hw).mono fun _ => .inl
  | true => exact (apply_links hc hw m h).2.mono fun _ => .inr

theorem test_apply (h : t.Holds n m) (hw : c.Within n) (hattr : attr.toNat < t.layout.attributeCount)
    (hv : t.testAttribute m obj attr = .ok v) :
    t.testAttribute (ending (c.apply t m)) obj attr = .ok ((c.mark? obj attr).getD v) := by
  cases c with
  | set x c => exact testAttribute_putAttribute true h hw hattr hv
  | clear x c => exact testAttribute_putAttribute false h hw hattr hv
  | insert x dest =>
    rw [testAttribute_of_links (apply_links rfl hw m h).2]
    exact hv
  | remove x =>
    rw [testAttribute_of_links (apply_links rfl hw m h).2]
    exact hv

end Change

/-- The memory after all these changes, each made in the memory that the one before it has left,
whether it succeeded or not. -/
def applyAll (t : ObjectTable) (m : Memory) (changes : List Change) : Memory :=
  changes.foldl (fun m c => ending (c.apply t m)) m

variable {changes : List Change}

theorem Holds.applyAll (h : t.Holds n m) (hw : ∀ c ∈ changes, c.Within n) : t.Holds n (t.applyAll m changes) := by
  induction changes generalizing m with
  | nil => exact h
  | cons c rest ih =>
    obtain ⟨hc, hrest⟩ := List.forall_mem_cons.1 hw
    exact ih (Change.apply_holds h hc) hrest

theorem applyAll_within (h : t.Holds n m) (hw : ∀ c ∈ changes, c.Within n) :
    Memory.ChangesWithin (fun b => t.AttributeByte n b ∨ t.LinkByte n b) m (t.applyAll m changes) := by
  induction changes generalizing m with
  | nil => exact Std.Refl.refl m
  | cons c rest ih =>
    obtain ⟨hc, hrest⟩ := List.forall_mem_cons.1 hw
    exact IsTrans.trans _ _ _ (Change.apply_within h hc) (ih (Change.apply_holds h hc) hrest)

theorem testAttribute_applyAll {v : Bool} (h : t.Holds n m) (hw : ∀ c ∈ changes, c.Within n)
    (hattr : attr.toNat < t.layout.attributeCount) (hv : t.testAttribute m obj attr = .ok v) :
    t.testAttribute (t.applyAll m changes) obj attr =
      .ok ((changes.filterMap (·.mark? obj attr)).getLast?.getD v) := by
  induction changes generalizing m v with
  | nil => exact hv
  | cons c rest ih =>
    obtain ⟨hc, hrest⟩ := List.forall_mem_cons.1 hw
    have hfirst := Change.test_apply h hc hattr hv
    -- what the first change leaves is what the others start from
    have hlast := ih (Change.apply_holds h hc) hrest hfirst
    cases hmark : c.mark? obj attr with
    | none =>
      rw [hmark] at hlast
      rw [List.filterMap_cons_none hmark]
      exact hlast
    | some on =>
      rw [hmark] at hlast
      rw [List.filterMap_cons_some hmark, List.getLast?_cons]
      exact hlast

theorem Holds.of_entries
    (hinside : ∀ obj, Numbered n obj → ∃ a, t.entry obj = .ok a ∧ a + t.layout.entrySize ≤ m.size)
    (hclosed : ∀ obj r v, Numbered n obj → t.relation m obj r = .ok v → v ≤ n) : t.Holds n m := by
  -- Where every object has an entry, none of them is past the last that a link could name.
  refine ⟨?_, ?_, hclosed⟩
  · intro hearly
    apply UInt16.not_lt.1
    intro hbig
    have hlast : Numbered n n := by
      refine ⟨?_, UInt16.le_refl n⟩
      rintro rfl
      exact UInt16.not_lt_zero hbig
    have hwidth : t.layout.relationWidth = 1 := by
      rw [layout, if_pos hearly]
      rfl
    obtain ⟨a, ha, -⟩ := hinside n hlast
    rw [entry, if_pos (.inr ⟨hwidth, hbig⟩)] at ha
    cases ha
  · intro obj a hobj ha
    obtain ⟨a', ha', hle⟩ := hinside obj hobj
    rw [ha] at ha'
    cases ha'
    exact hle

/-- The attributes of the objects from 1 to `n` are as they were last set or cleared, whatever has
become of the links, and nothing else has changed. -/
theorem attributes_after_changes
    (hinside : ∀ obj, Numbered n obj → ∃ a, t.entry obj = .ok a ∧ a + t.layout.entrySize ≤ m.size)
    (hclosed : ∀ obj r v, Numbered n obj → t.relation m obj r = .ok v → v ≤ n)
    (hw : ∀ c ∈ changes, c.Within n) :
    (∀ obj attr, Numbered n obj → attr.toNat < t.layout.attributeCount →
      ∃ v, t.testAttribute m obj attr = .ok v ∧ t.testAttribute (t.applyAll m changes) obj attr =
        .ok ((changes.filterMap (·.mark? obj attr)).getLast?.getD v)) ∧
    (∀ before c after, changes = before ++ c :: after →
      let m₁ := t.applyAll m before
      let m₂ := ending (c.apply t m₁)
      (c.moves = false → ∀ x r, t.relation m₂ x r = t.relation m₁ x r) ∧
      (c.moves = true → ∀ x attr, t.testAttribute m₂ x attr = t.testAttribute m₁ x attr)) ∧
    (∀ obj attr, t.layout.attributeCount ≤ attr.toNat →
      t.testAttribute (t.applyAll m changes) obj attr = .ok false ∧
      t.setAttribute obj attr (t.applyAll m changes) = .ok () (t.applyAll m changes) ∧
      t.clearAttribute obj attr (t.applyAll m changes) = .ok () (t.applyAll m changes)) ∧
    (∀ obj o, t.snapshot (t.applyAll m changes) obj = .ok o →
      ∀ attr, t.testAttribute (t.applyAll m changes) obj attr = .ok (o.hasAttribute attr.toNat)) ∧
    (t.applyAll m changes).size = m.size ∧
    ∀ b, ¬ t.AttributeByte n b → ¬ t.LinkByte n b → (t.applyAll m changes).byte b = m.byte b := by
  have h := Holds.of_entries hinside hclosed
  have hwithin := applyAll_within h hw
  refine ⟨?_, ?_, ?_, fun obj o ho attr => hasAttribute_of_snapshot ho attr, hwithin.size, ?_⟩
  · intro obj attr hobj hattr
    obtain ⟨v, hv⟩ := testAttribute_ok h hobj attr
    exact ⟨v, hv, testAttribute_applyAll h hw hattr hv⟩
  · rintro before c after rfl
    simp only [List.forall_mem_append, List.forall_mem_cons] at hw
    have hbefore := h.applyAll hw.1
    constructor
    · intro hc
      exact relation_of_attributes (Change.apply_attributes hc hbefore hw.2.1)
    · intro hc
      exact testAttribute_of_links (Change.apply_links hc hw.2.1 _ hbefore).2
  · intro obj attr hattr
    exact ⟨testAttribute_of_le hattr, putAttribute_of_le hattr, putAttribute_of_le hattr⟩
  · intro b hattribute hlink
    exact hwithin.byte b (not_or.2 ⟨hattribute, hlink⟩)

def smallChanges : List Change :=
  -- Attributes of object 3, which moves meanwhile; the second insertion fails, and the attribute 40
  -- does not exist.
  [.set 3 0, .insert 3 2, .set 3 31, .insert 2 2, .clear 3 0, .remove 4, .set 1 0, .set 3 40]

theorem attributes_after_smallChanges :
    (∀ c ∈ smallChanges, c.Within 5) ∧
      smallTable.testAttribute (smallTable.applyAll smallWorld smallChanges) 3 0 = .ok false ∧
      smallTable.testAttribute (smallTable.applyAll smallWorld smallChanges) 3 31 = .ok true ∧
      (smallTable.applyAll smallWorld smallChanges).byte 7 = .ok 0 := by
  have hholds := consistent_smallWorld.holds
  have hwithin : ∀ c ∈ smallChanges, c.Within 5 := by decide
  have htable {obj : UInt16} {a : Nat} (ha : smallTable.entry obj = .ok a) : 64 ≤ a := by
    obtain ⟨-, rfl⟩ := entry_ok ha
    exact Nat.le_add_right 64 _
  obtain ⟨hlast, -, -, -, -, hrest⟩ := attributes_after_changes
    (fun obj hobj => ⟨_, hholds.entry_eq hobj, hholds.inside obj _ hobj (hholds.entry_eq hobj)⟩)
    hholds.closed hwithin
  refine ⟨hwithin, ?_, ?_, ?_⟩
  · obtain ⟨v, -, hv⟩ := hlast 3 0 (by decide) (by decide)
    exact hv
  · obtain ⟨v, -, hv⟩ := hlast 3 31 (by decide) (by decide)
    exact hv
  · rw [hrest 7]
    · rfl
    · rintro ⟨obj, a, -, ha, hle, -⟩
      have hge := htable ha
      omega
    · rintro ⟨obj, r, b, -, hb, hle, -⟩
      obtain ⟨a, ha, rfl⟩ := relationAddress_ok hb
      have hge := htable ha
      omega

end ZMachine.ObjectTable
