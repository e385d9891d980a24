import ZMachine.Machine.Flow

/-!
Calls, returns and stacks. A user stack is a table: the number of its free slots, then the slots,
which are filled from the last down.
-/

namespace ZMachine.Machine

variable {η : Type}

def pullUserStack (stack : Nat) : Action Memory UInt16 := do
  let free := (← Action.reading (Memory.word · stack)) + 1
  let v ← Action.reading (Memory.word · (stack + free.toNat * 2))
  Memory.setWord stack free
  return v

/-- Whether there was room for the value. -/
def pushUserStack (stack : Nat) (v : UInt16) : Action Memory Bool := do
  let free ← Action.reading (Memory.word · stack)
  if free = 0 then return false
  Memory.setWord (stack + free.toNat * 2) v
  Memory.setWord stack (free - 1)
  return true

def dropUserStack (stack : Nat) (n : UInt16) : Action Memory Unit := do
  let free ← Action.reading (Memory.word · stack)
  Memory.setWord stack (free + n)

def popTimes : Nat → Action Core Unit
  | 0 => pure ()
  | n + 1 => do
    let _ ← Core.pop
    popTimes n

def executeRoutine (i : Instruction) (operands : List UInt16) : Action (Machine η) Outcome := do
  let first := operands.getD 0 0
  let second := operands.getD 1 0
  match i.mnemonic with
  | .call1s | .call2s | .callVs | .callVs2 => call first operands.tail i.store
  | .call1n | .call2n | .callVn | .callVn2 => call first operands.tail none
  | .ret => returnValue first
  | .rtrue => returnValue 1
  | .rfalse => returnValue 0
  | .retPopped =>
    let v ← onCore Core.pop
    returnValue v
  | .catchFrame => storeResult i (UInt16.ofNat (← get).core.depth)
  | .throwFrame =>
    onCore (Core.onFrames (CallStack.unwindTo second.toNat))
    returnValue first
  | .checkArgCount =>
    let frame ← onCore (Core.onFrames (Action.reading CallStack.top))
    branchOn i (first ≤ frame.arity.toUInt16)
  | .push =>
    onCore (Core.push first)
    return .proceeded
  | .pull =>
    if i.store.isSome then
      let v ← match operands with
        | stack :: _ => onMemory (pullUserStack stack.toNat)
        | [] => onCore Core.pop
      storeResult i v
    else
      let v ← onCore Core.pop
      onCore (Core.writeIndirect first.toUInt8 v)
      return .proceeded
  | .pop =>
    let _ ← onCore Core.pop
    return .proceeded
  | .popStack =>
    match operands with
    | _ :: stack :: _ => onMemory (dropUserStack stack.toNat first)
    | _ => onCore (popTimes first.toNat)
    return .proceeded
  | .pushStack =>
    let room ← onMemory (pushUserStack second.toNat first)
    branchOn i room
  | other => throw (.invalidStory (.unhandled .stack other))

end ZMachine.Machine
