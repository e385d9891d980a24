import ZMachine.Instruction.Basic
import ZMachine.Machine.State

namespace ZMachine

inductive Outcome where
  | proceeded
  | branched
  | called
  | returned (value : UInt16)
  | quit
  deriving DecidableEq

namespace Machine

variable {η : Type}

def storeTo (store : Option UInt8) (v : UInt16) : Action (Machine η) Unit :=
  match store with
  | none => pure ()
  | some n => onCore (Core.writeVariable n v)

def storeResult (i : Instruction) (v : UInt16) : Action (Machine η) Outcome := do
  storeTo i.store v
  return .proceeded

def returnValue (v : UInt16) : Action (Machine η) Outcome := do
  let frame ← onCore (Core.onFrames CallStack.pop)
  storeTo frame.storeTo v
  return .returned v

/-- Two less than the offset past the instruction, around the 32 bits of an address. -/
def target (next : Nat) (offset : Int) : Nat := ((next + offset - 2) % UInt32.size).toNat

def jumpBy (i : Instruction) (offset : Int) : Action (Machine η) Outcome := do
  onCore (Core.setPc (target i.next offset))
  return .branched

def branchOn (i : Instruction) (condition : Bool) : Action (Machine η) Outcome :=
  match i.branch with
  | none => return .proceeded
  | some b =>
    if condition ≠ b.onTrue then return .proceeded
    else if b.offset = 0 then returnValue 0
    else if b.offset = 1 then returnValue 1
    else jumpBy i b.offset

/-- The locals of a routine that declares `n`: the arguments, then the initial values. -/
def bindLocals (n : Nat) (args initial : List UInt16) : Vector UInt16 16 :=
  Vector.ofFn fun i => if i.val < n then args.getD i.val (initial.getD i.val 0) else 0

def routineFrame (version : UInt8) (a : Nat) (args : List UInt16) (store : Option UInt8)
    (m : Memory) : Except Fault Frame := do
  let n ← m.byte a
  if Core.maxLocals < n then throw (.invalidStory (.tooManyLocals a n))
  let initial ← if version < 5 then m.words (a + 1) n.toNat else pure []
  return {
    pc := a + 1 + 2 * initial.length
    locals := bindLocals n.toNat args initial
    numLocals := n
    arity := UInt8.ofNat args.length
    storeTo := store }

/-- Calls the routine at a packed address; address 0 returns false at once. -/
def call (packed : UInt16) (args : List UInt16) (store : Option UInt8) :
    Action (Machine η) Outcome := do
  if packed = 0 then
    storeTo store 0
    return .proceeded
  let version := (← get).version
  let frame ← readMemory fun m => routineFrame version (m.unpackRoutine packed) args store m
  onCore (Core.onFrames (CallStack.push frame))
  return .called

end Machine

end ZMachine
