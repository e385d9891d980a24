import ZMachine.Execute
import ZMachine.Instruction.Decode

namespace ZMachine.Machine

variable {η : Type}

def fetched (next : Nat) (s : Machine η) : Machine η :=
  match s with
  | ⟨⟨memory, pristine, frames⟩, version, streams, undo, count, quit, host⟩ =>
    let frames := match frames with
      | [] => []
      | f :: rest => { f with pc := next } :: rest
    ⟨⟨memory, pristine, frames⟩, version, streams, undo, count + 1, quit, host⟩

def undecoded (s : Machine η) (pc : Nat) : Site where
  pc
  opcode := match s.core.memory.byte pc with
    | .ok b => b
    | .error _ => 0
  mnemonic := none
  operands := []
  depth := s.core.depth

def site (s : Machine η) (i : Instruction) : Site where
  pc := i.address
  opcode := i.descriptor.raw
  mnemonic := some i.mnemonic
  operands := i.rawOperands
  depth := s.core.depth

def step [Host η] : EStateM Failure (Machine η) Outcome := fun s =>
  match s.core.pc with
  | .error e => .error (.plain e) s
  | .ok pc =>
    match s.core.memory.instruction s.version pc with
    | .error e => .error (.during (s.undecoded pc) (.plain e)) s
    | .ok i =>
      match execute i (s.fetched i.next) with
      | .ok .quit s => .ok .quit { s with quit := true }
      | .ok outcome s => .ok outcome s
      | .error e s => .error (.during (s.site i) (.plain e)) s

def flush [Host η] : EStateM Failure (Machine η) Unit := fun s =>
  match perform .flush s with
  | .ok () s => .ok () s
  | .error e s => .error (.plain e) s

def runFor [Host η] : Nat → EStateM Failure (Machine η) Unit
  | 0 => do if (← get).quit then flush
  | n + 1 => do
    if (← get).quit then flush
    else
      let _ ← step
      runFor n

/-- The count of instructions is a word of 64 bits, so no run is longer. -/
def longestRun : Nat := UInt64.size

def run [Host η] (limit : Option Nat) : EStateM Failure (Machine η) Unit :=
  runFor (limit.getD longestRun)

end ZMachine.Machine
