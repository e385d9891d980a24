import ZMachine.Object.Attribute
import ZMachine.Object.Property
import ZMachine.Object.Tree
import ZMachine.Proofs.Checked.Memory

/-!
Objects by bounded numbers. The table starts at an address of 16 bits, so the last entry ends
below 2 ^ 20; a property record starts inside the image, so the next one starts not far behind.
-/

namespace ZMachine.Checked

variable (t : ObjectTable)

def entry (obj : UInt16) : Calc Nat :=
  if obj = 0 ∨ (t.layout.relationWidth = 1 ∧ 255 < obj) then raise (.invalidObject obj)
  else do
    let defaults ← mul 32 t.layout.defaultProperties 2
    let above ← mul 32 (← sub obj.toNat 1) t.layout.entrySize
    add 32 (← add 32 t.base defaults) above

def relationAddress (obj : UInt16) (r : Relation) : Calc Nat := do
  let a ← add 32 (← entry t obj) t.layout.parentOffset
  add 32 a (← mul 32 r.index t.layout.relationWidth)

def relation (m : Memory) (obj : UInt16) (r : Relation) : Calc UInt16 := do
  let a ← relationAddress t obj r
  if t.layout.relationWidth = 1 then UInt8.toUInt16 <$> byte m a else word m a

def setRelation (obj : UInt16) (r : Relation) (value : UInt16) : Work Memory Unit := do
  let a ← read fun _ => relationAddress t obj r
  if t.layout.relationWidth = 1 then setByte a value.toUInt8 else setWord a value

def elderSibling (m : Memory) (parent obj : UInt16) : Nat → Nat → UInt16 → Calc UInt16
  | 0, _, _ => raise (.malformedTree (.notAChild obj parent))
  | left + 1, steps, current =>
    if current = 0 then raise (.malformedTree (.notAChild obj parent))
    else do
      let next ← relation t m current .sibling
      if next = obj then return current
      else elderSibling m parent obj left (← add 64 steps 1) next

def remove (obj : UInt16) : Work Memory Unit := do
  let parent ← read (relation t · obj .parent)
  if parent = 0 then return
  else
    let sibling ← read (relation t · obj .sibling)
    let first ← read (relation t · parent .child)
    if first = obj then
      setRelation t parent .child sibling
    else
      let elder ← read (elderSibling t · parent obj 65535 0 first)
      setRelation t elder .sibling sibling
    setRelation t obj .parent 0
    setRelation t obj .sibling 0

def insert (obj dest : UInt16) : Work Memory Unit := do
  if obj = dest then throw (.fault (.malformedTree (.intoItself obj)))
  let _ ← read fun _ => entry t dest
  remove t obj
  let first ← read (relation t · dest .child)
  setRelation t obj .sibling first
  setRelation t obj .parent dest
  setRelation t dest .child obj

def attributeBit (bits top : Nat) (attr : UInt16) : Calc Nat := do
  let bit ← sub top attr.toNat
  let _ ← shiftLeft bits 1 bit
  return bit

def testAttribute (m : Memory) (obj attr : UInt16) : Calc Bool :=
  if t.layout.attributeCount ≤ attr.toNat then return false
  else do
    let a ← entry t obj
    if attr < 32 then
      let bit ← attributeBit 32 31 attr
      return (← dword m a).toNat.testBit bit
    else
      let bit ← attributeBit 16 47 attr
      return (← word m (← add 32 a 4)).toNat.testBit bit

def putAttribute (obj attr : UInt16) (on : Bool) : Work Memory Unit :=
  if t.layout.attributeCount ≤ attr.toNat then return
  else do
    let a ← read fun _ => entry t obj
    if attr < 32 then
      let bit ← attributeBit 32 31 attr
      let flags ← read (dword · a)
      setDword a (UInt32.ofNat (ObjectTable.withBit flags.toNat bit on))
    else
      let bit ← attributeBit 16 47 attr
      let a ← add 32 a 4
      let flags ← read (word · a)
      setWord a (UInt16.ofNat (ObjectTable.withBit flags.toNat bit on))

def propertyTable (m : Memory) (obj : UInt16) : Calc Nat := do
  return (← word m (← add 32 (← entry t obj) t.layout.propertyTableOffset)).toNat

def shortName? (m : Memory) (obj : UInt16) : Calc (Option Nat) := do
  let table ← propertyTable t m obj
  if (← byte m table) = 0 then return none else return some (← add 32 table 1)

def defaultProperty (m : Memory) (property : UInt8) : Calc UInt16 :=
  if property = 0 ∨ t.layout.defaultProperties < property.toNat then
    raise (.malformedProperty (.noDefault property))
  else do word m (← add 32 t.base (← mul 32 (← sub property.toNat 1) 2))

def firstRecord (m : Memory) (obj : UInt16) : Calc Nat := do
  let table ← propertyTable t m obj
  let name ← mul 32 (← byte m table).toNat 2
  add 32 (← add 32 table 1) name

def record? (m : Memory) (a : Nat) : Calc (Option PropertyRecord) := do
  let first ← byte m a
  if first = 0 then return none
  else if t.version ≤ 3 then
    let size ← add 16 (← shiftRight 8 first.toNat 5) 1
    return some ⟨UInt8.ofNat (first.toNat % 32), size, ← add 32 a 1⟩
  else if 128 ≤ first then
    let size := longSize (← byte m (← add 32 a 1))
    return some ⟨UInt8.ofNat (first.toNat % 64), size, ← add 32 a 2⟩
  else return some ⟨UInt8.ofNat (first.toNat % 64), if 64 ≤ first then 2 else 1, ← add 32 a 1⟩

def nextRecord (r : PropertyRecord) : Calc Nat := add 32 r.data r.size

def findRecord (m : Memory) (obj : UInt16) (property : UInt8) :
    Nat → Nat → Calc (Option PropertyRecord)
  | 0, _ => raise (.malformedProperty (.endless obj))
  | left + 1, a => do
    match ← record? t m a with
    | none => return none
    | some r =>
      if r.number = property then return some r
      else if r.number < property then return none
      else findRecord m obj property left (← nextRecord r)

def findProperty (m : Memory) (obj : UInt16) (property : UInt8) : Calc (Option PropertyRecord) := do
  findRecord t m obj property 64 (← firstRecord t m obj)

def property (m : Memory) (obj : UInt16) (property : UInt8) : Calc UInt16 := do
  match ← findProperty t m obj property with
  | none => defaultProperty t m property
  | some r => if r.size = 1 then UInt8.toUInt16 <$> byte m r.data else word m r.data

def propertyAddress (m : Memory) (obj : UInt16) (property : UInt8) : Calc Nat := do
  return ((← findProperty t m obj property).map PropertyRecord.data).getD 0

def numberAt (m : Memory) (a : Nat) : Calc UInt8 := do
  return ((← record? t m a).map PropertyRecord.number).getD 0

def nextProperty (m : Memory) (obj : UInt16) (property : UInt8) : Calc UInt8 := do
  if property = 0 then numberAt t m (← firstRecord t m obj)
  else
    match ← findProperty t m obj property with
    | none => raise (.malformedProperty (.noNext obj property))
    | some r => numberAt t m (← nextRecord r)

def setProperty (obj : UInt16) (property : UInt8) (value : UInt16) : Work Memory Unit := do
  match ← read (findProperty t · obj property) with
  | none => throw (.fault (.malformedProperty (.noTarget obj property)))
  | some r => if r.size = 1 then setByte r.data value.toUInt8 else setWord r.data value

def propertyLength (m : Memory) (a : Nat) : Calc Nat :=
  if a = 0 then return 0
  else do
    let b ← byte m (← sub a 1)
    if t.version ≤ 3 then add 16 (← shiftRight 8 b.toNat 5) 1
    else return if 128 ≤ b then longSize b else if 64 ≤ b then 2 else 1

variable {t} {m : Memory} {obj : UInt16}

section Relations

theorem layout_bound (t : ObjectTable) :
    t.layout.defaultProperties ≤ 63 ∧ t.layout.entrySize ≤ 14 ∧ t.layout.relationWidth ≤ 2 ∧
      t.layout.parentOffset ≤ 6 ∧ t.layout.propertyTableOffset ≤ 12 ∧
      t.layout.attributeCount ≤ 48 := by
  unfold ObjectTable.layout
  split
  · decide
  · decide

theorem above_bound (t : ObjectTable) (obj : UInt16) :
    (obj.toNat - 1) * t.layout.entrySize ≤ 65534 * 14 := by
  have ho := obj.toNat_lt
  exact Nat.mul_le_mul (by omega) (layout_bound t).2.1

theorem entry_lt {a : Nat} (ht : t.base < 2 ^ 16) (h : t.entry obj = .ok a) : a < 2 ^ 20 := by
  have ha := above_bound t obj
  have hl := layout_bound t
  unfold ObjectTable.entry at h
  split at h
  · cases h
  · cases h
    omega

theorem entry_agrees (ht : t.base < 2 ^ 16) : Agrees (entry t obj) (t.entry obj) := by
  have ha := above_bound t obj
  have hl := layout_bound t
  unfold entry ObjectTable.entry
  refine .ite (fun _ => .error trivial) fun h => ?_
  have positive : 1 ≤ obj.toNat := Nat.pos_of_ne_zero fun hz => h (.inl (UInt16.toNat_inj.mp hz))
  simp (disch := omega) only [mul_of_lt, sub_of_le, add_of_lt, ok_bind]
  exact .ok _

theorem index_bound (t : ObjectTable) (r : Relation) : r.index * t.layout.relationWidth ≤ 4 := by
  have hl := (layout_bound t).2.2.1
  cases r <;> simp only [Relation.index] <;> omega

theorem relationAddress_lt {r : Relation} {a : Nat} (ht : t.base < 2 ^ 16)
    (h : t.relationAddress obj r = .ok a) : a < 2 ^ 32 := by
  have hi := index_bound t r
  have hl := layout_bound t
  obtain ⟨e, he, h⟩ := ok_of_bind_except h
  have hb := entry_lt ht he
  cases h
  omega

theorem relationAddress_agrees {r : Relation} (ht : t.base < 2 ^ 16) :
    Agrees (relationAddress t obj r) (t.relationAddress obj r) := by
  have hi := index_bound t r
  have hl := layout_bound t
  refine .bind (entry_agrees ht) fun e he => ?_
  have hb := entry_lt ht he
  simp (disch := omega) only [mul_of_lt, add_of_lt, ok_bind]
  exact .ok _

theorem relation_agrees {r : Relation} (ht : t.base < 2 ^ 16) :
    Agrees (relation t m obj r) (t.relation m obj r) := by
  refine .bind (relationAddress_agrees ht) fun a ha => ?_
  have hb := relationAddress_lt ht ha
  exact .ite (fun _ => (byte_agrees hb).map _) fun _ => word_agrees hb

theorem setRelation_tracks {n : Nat} {r : Relation} {value : UInt16} (ht : t.base < 2 ^ 16) :
    Tracks (Memory.Sized n) (setRelation t obj r value) (t.setRelation obj r value) := by
  refine .bind_read (fun _ _ => relationAddress_agrees ht) fun a _ ha => ?_
  have hb := relationAddress_lt ht ha
  exact .ite (fun _ => setByte_tracks hb) fun _ => setWord_tracks hb

theorem elderSibling_agrees {parent : UInt16} {left steps : Nat} {current : UInt16}
    (ht : t.base < 2 ^ 16) (h : left + steps < 2 ^ 64) :
    Agrees (elderSibling t m parent obj left steps current)
      (t.elderSibling m parent obj left current) := by
  induction left generalizing steps current with
  | zero => exact .error trivial
  | succ left ih =>
    unfold elderSibling ObjectTable.elderSibling
    refine .ite (fun _ => .error trivial) fun _ => ?_
    refine .bind (relation_agrees ht) fun next _ => .ite (fun _ => .ok _) fun _ => ?_
    rw [add_of_lt (by omega), ok_bind]
    exact ih (by omega)

theorem remove_tracks {n : Nat} (ht : t.base < 2 ^ 16) :
    Tracks (Memory.Sized n) (remove t obj) (t.remove obj) := by
  have cut : Tracks (Memory.Sized n)
      (do
        setRelation t obj .parent 0
        setRelation t obj .sibling 0)
      (do
        t.setRelation obj .parent 0
        t.setRelation obj .sibling 0) :=
    .bind (setRelation_tracks ht) fun _ => setRelation_tracks ht
  refine .bind (.read fun _ _ => relation_agrees ht) fun parent => .ite (fun _ => .pure _) fun _ => ?_
  refine .bind (.read fun _ _ => relation_agrees ht) fun sibling => ?_
  refine .bind (.read fun _ _ => relation_agrees ht) fun first => ?_
  split
  · exact .bind (setRelation_tracks ht) fun _ => cut
  · refine .bind (.read fun _ _ => elderSibling_agrees ht (by decide)) fun elder => ?_
    exact .bind (setRelation_tracks ht) fun _ => cut

theorem insert_tracks {n : Nat} {dest : UInt16} (ht : t.base < 2 ^ 16) :
    Tracks (Memory.Sized n) (insert t obj dest) (t.insert obj dest) := by
  have link : Tracks (Memory.Sized n)
      (do
        let _ ← read fun _ => entry t dest
        remove t obj
        let first ← read (relation t · dest .child)
        setRelation t obj .sibling first
        setRelation t obj .parent dest
        setRelation t dest .child obj)
      (do
        let _ ← Action.reading fun _ => t.entry dest
        t.remove obj
        let first ← Action.reading (t.child · dest)
        t.setRelation obj .sibling first
        t.setRelation obj .parent dest
        t.setRelation dest .child obj) := by
    refine .bind (.read fun _ _ => entry_agrees ht) fun _ => .bind (remove_tracks ht) fun _ => ?_
    refine .bind (.read fun _ _ => relation_agrees ht) fun first => ?_
    refine .bind (setRelation_tracks ht) fun _ => .bind (setRelation_tracks ht) fun _ => ?_
    exact setRelation_tracks ht
  unfold insert ObjectTable.insert
  split
  · exact .bind (.throw trivial) fun _ => link
  · exact link

end Relations

section Attributes

variable {attr : UInt16}

theorem attributeBit_eq {bits top : Nat} (h : attr.toNat ≤ top) (h' : top - attr.toNat < bits) :
    attributeBit bits top attr = .ok (top - attr.toNat) := by
  unfold attributeBit
  rw [sub_of_le h, ok_bind, shiftLeft_of_lt h']
  rfl

theorem testAttribute_agrees (ht : t.base < 2 ^ 16) :
    Agrees (testAttribute t m obj attr) (t.testAttribute m obj attr) := by
  have hl := layout_bound t
  unfold testAttribute ObjectTable.testAttribute
  refine .ite (fun _ => .ok _) fun inside => .bind (entry_agrees ht) fun a ha => ?_
  have hb := entry_lt ht ha
  refine .ite (fun early => ?_) fun late => ?_
  · have he : attr.toNat < 32 := UInt16.lt_iff_toNat_lt.mp early
    rw [attributeBit_eq (by omega) (by omega), ok_bind]
    exact .bind (dword_agrees (by omega)) fun _ _ => .ok _
  · have he : 32 ≤ attr.toNat := UInt16.le_iff_toNat_le.mp (UInt16.not_lt.mp late)
    rw [attributeBit_eq (by omega) (by omega), ok_bind, add_of_lt (by omega), ok_bind]
    exact .bind (word_agrees (by omega)) fun _ _ => .ok _

theorem putAttribute_tracks {n : Nat} {on : Bool} (ht : t.base < 2 ^ 16) :
    Tracks (Memory.Sized n) (putAttribute t obj attr on) (t.putAttribute obj attr on) := by
  have hl := layout_bound t
  unfold putAttribute ObjectTable.putAttribute
  refine .ite (fun _ => .pure _) fun inside => ?_
  refine .bind_read (fun _ _ => entry_agrees ht) fun a _ ha => ?_
  have hb := entry_lt ht ha
  refine .ite (fun early => ?_) fun late => ?_
  · have he : attr.toNat < 32 := UInt16.lt_iff_toNat_lt.mp early
    rw [attributeBit_eq (by omega) (by omega), lift_ok_bind]
    exact .bind (.read fun _ _ => dword_agrees (by omega)) fun _ => setDword_tracks (by omega)
  · have he : 32 ≤ attr.toNat := UInt16.le_iff_toNat_le.mp (UInt16.not_lt.mp late)
    rw [attributeBit_eq (by omega) (by omega), lift_ok_bind, add_of_lt (by omega), lift_ok_bind]
    exact .bind (.read fun _ _ => word_agrees (by omega)) fun _ => setWord_tracks (by omega)

end Attributes

section Properties

variable {p : UInt8} {r : PropertyRecord} {a : Nat}

theorem propertyTable_lt (h : t.propertyTable m obj = .ok a) : a < 2 ^ 16 := by
  obtain ⟨e, -, h⟩ := ok_of_bind_except h
  obtain ⟨w, -, h⟩ := ok_of_bind_except h
  cases h
  exact w.toNat_lt

theorem propertyTable_agrees (ht : t.base < 2 ^ 16) :
    Agrees (propertyTable t m obj) (t.propertyTable m obj) := by
  have hl := layout_bound t
  refine .bind (entry_agrees ht) fun e he => ?_
  have hb := entry_lt ht he
  rw [add_of_lt (by omega), ok_bind]
  exact .bind (word_agrees (by omega)) fun _ _ => .ok _

theorem shortName?_lt (h : t.shortName? m obj = .ok (some a)) : a < 2 ^ 32 := by
  obtain ⟨table, ht, h⟩ := ok_of_bind_except h
  obtain ⟨b, -, h⟩ := ok_of_bind_except h
  have hb := propertyTable_lt ht
  split at h
  · cases h
  · cases h
    omega

theorem shortName?_agrees (ht : t.base < 2 ^ 16) :
    Agrees (shortName? t m obj) (t.shortName? m obj) := by
  refine .bind (propertyTable_agrees ht) fun table htable => ?_
  have hb := propertyTable_lt htable
  refine .bind (byte_agrees (by omega)) fun b _ => ?_
  rw [add_of_lt (by omega), ok_bind]
  split <;> exact .ok _

theorem defaultProperty_agrees (ht : t.base < 2 ^ 16) :
    Agrees (defaultProperty t m p) (t.defaultProperty m p) := by
  have hp := p.toNat_lt
  unfold defaultProperty ObjectTable.defaultProperty
  refine .ite (fun _ => .error trivial) fun h => ?_
  have positive : 1 ≤ p.toNat := Nat.pos_of_ne_zero fun hz => h (.inl (UInt8.toNat_inj.mp hz))
  simp (disch := omega) only [sub_of_le, mul_of_lt, add_of_lt, ok_bind]
  exact word_agrees (by omega)

theorem firstRecord_lt (h : t.firstRecord m obj = .ok a) : a < 2 ^ 32 := by
  obtain ⟨table, ht, h⟩ := ok_of_bind_except h
  obtain ⟨b, -, h⟩ := ok_of_bind_except h
  have hb := propertyTable_lt ht
  have hn := b.toNat_lt
  cases h
  omega

theorem firstRecord_agrees (ht : t.base < 2 ^ 16) :
    Agrees (firstRecord t m obj) (t.firstRecord m obj) := by
  refine .bind (propertyTable_agrees ht) fun table htable => ?_
  have hb := propertyTable_lt htable
  refine .bind (byte_agrees (by omega)) fun b _ => ?_
  have hn := b.toNat_lt
  simp (disch := omega) only [mul_of_lt, add_of_lt, ok_bind]
  exact .ok _

theorem longSize_le (b : UInt8) : longSize b ≤ 64 := by
  unfold longSize
  split <;> omega

theorem record?_bound (h : t.record? m a = .ok (some r)) : r.data ≤ 524289 ∧ r.size ≤ 64 := by
  obtain ⟨first, hf, h⟩ := ok_of_bind_except h
  have ha := Memory.byte_bound hf
  have hb := first.toNat_lt
  split at h
  · cases h
  split at h
  · cases h
    exact ⟨by dsimp only; omega, by dsimp only; omega⟩
  split at h
  · obtain ⟨second, hs, h⟩ := ok_of_bind_except h
    cases h
    exact ⟨by dsimp only; omega, longSize_le second⟩
  · cases h
    refine ⟨by dsimp only; omega, ?_⟩
    dsimp only
    split <;> omega

theorem record?_agrees (ha : a < 2 ^ 32) : Agrees (record? t m a) (t.record? m a) := by
  refine .bind (byte_agrees ha) fun first hf => ?_
  have inside := Memory.byte_bound hf
  have hb := first.toNat_lt
  have size : first.toNat >>> 5 = first.toNat / 32 := Nat.shiftRight_eq_div_pow _ 5
  refine .ite (fun _ => .ok _) fun _ => .ite (fun _ => ?_) fun _ => .ite (fun _ => ?_) fun _ => ?_
  · rw [shiftRight_of_lt (by decide), ok_bind, size, add_of_lt (by omega), ok_bind,
      add_of_lt (by omega)]
    exact .ok _
  · rw [add_of_lt (by omega), ok_bind]
    refine .bind (byte_agrees (by omega)) fun second _ => ?_
    rw [add_of_lt (by omega)]
    exact .ok _
  · rw [add_of_lt (by omega)]
    exact .ok _

theorem nextRecord_eq (h : r.data ≤ 524289 ∧ r.size ≤ 64) : nextRecord r = .ok r.next :=
  add_of_lt (by omega)

theorem next_lt (h : r.data ≤ 524289 ∧ r.size ≤ 64) : r.next < 2 ^ 32 := by
  unfold PropertyRecord.next
  omega

theorem findFrom_bound {left : Nat} (h : t.findFrom m obj p left a = .ok (some r)) :
    r.data ≤ 524289 ∧ r.size ≤ 64 := by
  induction left generalizing a with
  | zero => cases h
  | succ left ih =>
    obtain ⟨found, hf, h⟩ := ok_of_bind_except h
    cases found with
    | none => cases h
    | some q =>
      dsimp only at h
      split at h
      · cases h
        exact record?_bound hf
      split at h
      · cases h
      · exact ih h

theorem findRecord_agrees {left : Nat} (ha : a < 2 ^ 32) :
    Agrees (findRecord t m obj p left a) (t.findFrom m obj p left a) := by
  induction left generalizing a with
  | zero => exact .error trivial
  | succ left ih =>
    refine .bind (record?_agrees ha) fun found hf => ?_
    cases found with
    | none => exact .ok _
    | some q =>
      have hq := record?_bound hf
      refine .ite (fun _ => .ok _) fun _ => .ite (fun _ => .ok _) fun _ => ?_
      rw [nextRecord_eq hq, ok_bind]
      exact ih (next_lt hq)

theorem findProperty_bound (h : t.findProperty m obj p = .ok (some r)) :
    r.data ≤ 524289 ∧ r.size ≤ 64 := by
  obtain ⟨first, -, h⟩ := ok_of_bind_except h
  exact findFrom_bound h

theorem findProperty_agrees (ht : t.base < 2 ^ 16) :
    Agrees (findProperty t m obj p) (t.findProperty m obj p) :=
  .bind (firstRecord_agrees ht) fun _ hf => findRecord_agrees (firstRecord_lt hf)

theorem property_agrees (ht : t.base < 2 ^ 16) :
    Agrees (property t m obj p) (t.property m obj p) := by
  refine .bind (findProperty_agrees ht) fun found hf => ?_
  cases found with
  | none => exact defaultProperty_agrees ht
  | some r =>
    have hr := findProperty_bound hf
    exact .ite (fun _ => (byte_agrees (by omega)).map _) fun _ => word_agrees (by omega)

theorem propertyAddress_agrees (ht : t.base < 2 ^ 16) :
    Agrees (propertyAddress t m obj p) (t.propertyAddress m obj p) :=
  .bind (findProperty_agrees ht) fun _ _ => .ok _

theorem numberAt_agrees (ha : a < 2 ^ 32) : Agrees (numberAt t m a) (t.numberAt m a) :=
  .bind (record?_agrees ha) fun _ _ => .ok _

theorem nextProperty_agrees (ht : t.base < 2 ^ 16) :
    Agrees (nextProperty t m obj p) (t.nextProperty m obj p) := by
  refine .ite (fun _ => ?_) fun _ => ?_
  · exact .bind (firstRecord_agrees ht) fun _ hf => numberAt_agrees (firstRecord_lt hf)
  · refine .bind (findProperty_agrees ht) fun found hf => ?_
    cases found with
    | none => exact .error trivial
    | some r =>
      have hr := findProperty_bound hf
      dsimp only
      rw [nextRecord_eq hr, ok_bind]
      exact numberAt_agrees (next_lt hr)

theorem setProperty_tracks {n : Nat} {value : UInt16} (ht : t.base < 2 ^ 16) :
    Tracks (Memory.Sized n) (setProperty t obj p value) (t.setProperty obj p value) := by
  refine .bind_read (fun _ _ => findProperty_agrees ht) fun found _ hf => ?_
  cases found with
  | none => exact .throw trivial
  | some r =>
    have hr := findProperty_bound hf
    exact .ite (fun _ => setByte_tracks (by omega)) fun _ => setWord_tracks (by omega)

theorem propertyLength_agrees (ha : a < 2 ^ 32) :
    Agrees (propertyLength t m a) (t.propertyLength m a) := by
  unfold propertyLength ObjectTable.propertyLength
  refine .ite (fun _ => .ok _) fun h => ?_
  rw [sub_of_le (by omega), ok_bind]
  refine .bind (byte_agrees (by omega)) fun b _ => ?_
  have hb := b.toNat_lt
  have size : b.toNat >>> 5 = b.toNat / 32 := Nat.shiftRight_eq_div_pow _ 5
  split
  · rw [shiftRight_of_lt (by decide), ok_bind, size, add_of_lt (by omega)]
    exact .ok _
  · exact .ok _

end Properties

end ZMachine.Checked
