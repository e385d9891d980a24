import ZMachine.Object.Layout

/-!
Property tables: the short name, then records of falling property numbers up to a zero byte. A
record is a header of one or two bytes, with the number and the size, and the data.
-/

namespace ZMachine

structure PropertyRecord where
  number : UInt8
  size : Nat
  /-- Address of the first data byte. -/
  data : Nat
  deriving DecidableEq

def PropertyRecord.next (r : PropertyRecord) : Nat := r.data + r.size

def longSize (b : UInt8) : Nat := if b.toNat % 64 = 0 then 64 else b.toNat % 64

namespace ObjectTable

variable (t : ObjectTable)

def propertyTable (m : Memory) (obj : UInt16) : Except Fault Nat := do
  return (← m.word ((← t.entry obj) + t.layout.propertyTableOffset)).toNat

def shortName? (m : Memory) (obj : UInt16) : Except Fault (Option Nat) := do
  let table ← t.propertyTable m obj
  return if (← m.byte table) = 0 then none else some (table + 1)

def defaultProperty (m : Memory) (property : UInt8) : Except Fault UInt16 :=
  if property = 0 ∨ t.layout.defaultProperties < property.toNat then
    .error (.malformedProperty (.noDefault property))
  else m.word (t.base + (property.toNat - 1) * 2)

def firstRecord (m : Memory) (obj : UInt16) : Except Fault Nat := do
  let table ← t.propertyTable m obj
  return table + 1 + (← m.byte table).toNat * 2

def record? (m : Memory) (a : Nat) : Except Fault (Option PropertyRecord) := do
  let first ← m.byte a
  if first = 0 then return none
  if t.version ≤ 3 then
    return some ⟨UInt8.ofNat (first.toNat % 32), first.toNat / 32 + 1, a + 1⟩
  let number := UInt8.ofNat (first.toNat % 64)
  if 128 ≤ first then return some ⟨number, longSize (← m.byte (a + 1)), a + 2⟩
  return some ⟨number, if 64 ≤ first then 2 else 1, a + 1⟩

/-- The records from `a`: at most `left` of them, each with a number below `previous`. -/
def recordsFrom (m : Memory) (obj : UInt16) (left : Nat) (previous : Option UInt8) (a : Nat) :
    Except Fault (List PropertyRecord) := do
  match ← t.record? m a with
  | none => return []
  | some r =>
    if let some p := previous then
      if p ≤ r.number then throw (.malformedProperty (.notDescending obj a r.number p))
    match left with
    | 0 => throw (.malformedProperty (.endless obj))
    | left + 1 => return r :: (← recordsFrom m obj left (some r.number) r.next)

def properties (m : Memory) (obj : UInt16) : Except Fault (List PropertyRecord) := do
  t.recordsFrom m obj 64 none (← t.firstRecord m obj)

def findFrom (m : Memory) (obj : UInt16) (property : UInt8) :
    Nat → Nat → Except Fault (Option PropertyRecord)
  | 0, _ => .error (.malformedProperty (.endless obj))
  | left + 1, a => do
    match ← t.record? m a with
    | none => return none
    | some r =>
      if r.number = property then return some r
      if r.number < property then return none
      findFrom m obj property left r.next

def findProperty (m : Memory) (obj : UInt16) (property : UInt8) :
    Except Fault (Option PropertyRecord) := do
  t.findFrom m obj property 64 (← t.firstRecord m obj)

def property (m : Memory) (obj : UInt16) (property : UInt8) : Except Fault UInt16 := do
  match ← t.findProperty m obj property with
  | none => t.defaultProperty m property
  | some r => if r.size = 1 then UInt8.toUInt16 <$> m.byte r.data else m.word r.data

def propertyAddress (m : Memory) (obj : UInt16) (property : UInt8) : Except Fault Nat := do
  return ((← t.findProperty m obj property).map PropertyRecord.data).getD 0

def numberAt (m : Memory) (a : Nat) : Except Fault UInt8 := do
  return ((← t.record? m a).map PropertyRecord.number).getD 0

def nextProperty (m : Memory) (obj : UInt16) (property : UInt8) : Except Fault UInt8 := do
  if property = 0 then return ← t.numberAt m (← t.firstRecord m obj)
  match ← t.findProperty m obj property with
  | none => throw (.malformedProperty (.noNext obj property))
  | some r => t.numberAt m r.next

def setProperty (obj : UInt16) (property : UInt8) (value : UInt16) : Action Memory Unit := do
  match ← Action.reading (t.findProperty · obj property) with
  | none => throw (.malformedProperty (.noTarget obj property))
  | some r => if r.size = 1 then Memory.setByte r.data value.toUInt8 else Memory.setWord r.data value

/-- The size of the property with data at `a`, read back from the byte before it; 0 at 0. -/
def propertyLength (m : Memory) (a : Nat) : Except Fault Nat := do
  if a = 0 then return 0
  let b ← m.byte (a - 1)
  return if t.version ≤ 3 then b.toNat / 32 + 1
    else if 128 ≤ b then longSize b
    else if 64 ≤ b then 2
    else 1

end ObjectTable

end ZMachine
