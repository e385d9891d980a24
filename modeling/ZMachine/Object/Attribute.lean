import ZMachine.Object.Layout

namespace ZMachine.ObjectTable

variable (t : ObjectTable)

def testAttribute (m : Memory) (obj attr : UInt16) : Except Fault Bool := do
  if t.layout.attributeCount ≤ attr.toNat then return false
  let a ← t.entry obj
  if attr < 32 then return (← m.dword a).toNat.testBit (31 - attr.toNat)
  return (← m.word (a + 4)).toNat.testBit (47 - attr.toNat)

def withBit (n i : Nat) (on : Bool) : Nat :=
  if n.testBit i = on then n else n ^^^ 1 <<< i

def putAttribute (obj attr : UInt16) (on : Bool) : Action Memory Unit := do
  if t.layout.attributeCount ≤ attr.toNat then return
  let a ← Action.reading fun _ => t.entry obj
  if attr < 32 then
    let flags ← Action.reading (Memory.dword · a)
    Memory.setDword a (UInt32.ofNat (withBit flags.toNat (31 - attr.toNat) on))
  else
    let flags ← Action.reading (Memory.word · (a + 4))
    Memory.setWord (a + 4) (UInt16.ofNat (withBit flags.toNat (47 - attr.toNat) on))

def setAttribute (obj attr : UInt16) : Action Memory Unit := t.putAttribute obj attr true

def clearAttribute (obj attr : UInt16) : Action Memory Unit := t.putAttribute obj attr false

end ZMachine.ObjectTable
