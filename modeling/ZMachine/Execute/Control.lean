import ZMachine.Machine.Flow

namespace ZMachine.Machine

variable {η : Type}

def restart [Host η] : Action (Machine η) Unit := do
  onCore Core.reset
  modify fun s => { s with streams := { s.streams with tables := [] }, undo := [] }
  publishHeader

def snapshot (s : Machine η) (store : Option UInt8) : Snapshot where
  memory := s.core.memory.bytes.extract 0 s.core.memory.staticMemoryBase.toNat
  frames := s.core.frames
  store

/-- Keeps a snapshot, and no more than the newest ten. -/
def keep (snapshot : Snapshot) : Action (Machine η) Unit :=
  modify fun s => { s with undo := (snapshot :: s.undo).take undoLimit }

def revert (snapshot : Snapshot) : Action (Machine η) Unit := do
  onMemory (Memory.copyFrom snapshot.memory)
  onCore (Core.onFrames (set snapshot.frames))
  storeTo snapshot.store 2

def executeControl [Host η] (i : Instruction) (operands : List UInt16) :
    Action (Machine η) Outcome := do
  match i.mnemonic with
  | .jump =>
    match operands with
    | [] => throw (.defect .missingOperand)
    | offset :: _ => jumpBy i offset.toInt16.toInt
  | .nop => return .proceeded
  | .quit =>
    perform .flush
    return .quit
  | .restart =>
    restart
    return .proceeded
  | .verify =>
    let core := (← get).core
    branchOn i (core.memory.checksumField = core.checksum)
  | .piracy => branchOn i true
  | .save | .restore =>
    storeTo i.store 0
    branchOn i false
  | .saveUndo =>
    keep ((← get).snapshot i.store)
    storeResult i 1
  | .restoreUndo =>
    match (← get).undo with
    | [] => storeResult i 0
    | newest :: older =>
      modify fun s => { s with undo := older }
      revert newest
      return .proceeded
  | other => throw (.invalidStory (.unhandled .control other))

end ZMachine.Machine
