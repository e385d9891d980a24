import ZMachine.Machine.Flow

namespace ZMachine.Machine

variable {η : Type}

def clearBytes (a : Nat) : Nat → Action Memory Unit
  | 0 => pure ()
  | n + 1 => do
    Memory.setByte a 0
    clearBytes (a + 1) n

def copyForward (source dest : Nat) : Nat → Action Memory Unit
  | 0 => pure ()
  | n + 1 => do
    Memory.setByte dest (← Action.reading (Memory.byte · source))
    copyForward (source + 1) (dest + 1) n

/-- Copies a table. Destination 0 clears it instead, and a negative size copies forward. -/
def copyTable (first second : Nat) (size : Int) : Action Memory Unit := do
  let n := size.natAbs
  if second = 0 then clearBytes first n
  else if size < 0 then copyForward first second n
  else Memory.setBytes second (← Action.reading (Memory.slice · first n))

def scanTable (m : Memory) (value : UInt16) (words : Bool) (width : Nat) :
    Nat → Nat → Except Fault (Option Nat)
  | _, 0 => return none
  | a, n + 1 => do
    let entry ← if words then m.word a else UInt8.toUInt16 <$> m.byte a
    if entry = value then return some a
    scanTable m value words width (a + width) n

def wordTable : UInt16 := 0x82

def executeTable (i : Instruction) (operands : List UInt16) : Action (Machine η) Outcome := do
  let a := operands.getD 0 0
  let b := operands.getD 1 0
  let c := operands.getD 2 0
  match i.mnemonic with
  | .load =>
    let v ← onCore (Core.readIndirect a.toUInt8)
    storeResult i v
  | .store =>
    onCore (Core.writeIndirect a.toUInt8 b)
    return .proceeded
  | .loadw =>
    let v ← readMemory (Memory.word · (a + 2 * b).toNat)
    storeResult i v
  | .loadb =>
    let v ← readMemory (Memory.byte · (a + b).toNat)
    storeResult i v.toUInt16
  | .storew =>
    onMemory (Memory.setWord (a + 2 * b).toNat c)
    return .proceeded
  | .storeb =>
    onMemory (Memory.setByte (a + b).toNat c.toUInt8)
    return .proceeded
  | .copyTable =>
    onMemory (copyTable a.toNat b.toNat c.toInt16.toInt)
    return .proceeded
  | .scanTable =>
    let form := (operands.getD 3 wordTable).toNat
    let found ← readMemory fun m =>
      scanTable m a (form.testBit 7) (form % 128) b.toNat c.toNat
    storeTo i.store (UInt16.ofNat (found.getD 0))
    branchOn i found.isSome
  | other => throw (.invalidStory (.unhandled .memory other))

end ZMachine.Machine
