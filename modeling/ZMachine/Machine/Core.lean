import ZMachine.CallStack
import ZMachine.Header

/-!
What a story can reach of the machine by itself: its memory, the image as it was loaded, and the
frames of its routines; and the variables, which are spread over them. Variable 0 is the
evaluation stack, 1 to 15 are locals, and the rest are globals in memory.
-/

namespace ZMachine

structure Core where
  memory : Memory
  /-- The image as loaded. -/
  pristine : Memory
  frames : CallStack

namespace Core

variable {α : Type}

def onMemory (act : Action Memory α) : Action Core α := fun ⟨memory, pristine, frames⟩ =>
  match act memory with
  | .ok a memory => .ok a ⟨memory, pristine, frames⟩
  | .error e memory => .error e ⟨memory, pristine, frames⟩

def onFrames (act : Action CallStack α) : Action Core α := fun ⟨memory, pristine, frames⟩ =>
  match act frames with
  | .ok a frames => .ok a ⟨memory, pristine, frames⟩
  | .error e frames => .error e ⟨memory, pristine, frames⟩

def onTop (act : Action Frame α) : Action Core α := onFrames (CallStack.onTop act)

def readMemory (f : Memory → Except Fault α) : Action Core α := onMemory (Action.reading f)

def maxLocals : UInt8 := 15

def mainFrame (m : Memory) : Except Fault Frame :=
  if m.version ≤ 5 then .ok { pc := m.initialPc.toNat }
  else do
    let entry := m.unpackRoutine m.initialPc
    return { pc := entry + 1, numLocals := min (← m.byte entry) maxLocals }

def boot (m : Memory) : Except Fault Core := do
  return ⟨m, m, [← mainFrame m]⟩

def restored (pristine : Memory) (flags : UInt16) : Memory :=
  pristine.setFlags2 ((pristine.flags2 &&& ~~~3) ||| (flags &&& 3))

/-- Back to the loaded image and the main routine. The transcript and fixed-pitch bits of the
second flags survive. -/
def reset : Action Core Unit := fun c =>
  let memory := restored c.pristine c.memory.flags2
  match mainFrame memory with
  | .ok main => .ok () ⟨memory, c.pristine, [main]⟩
  | .error e => .error e ⟨memory, c.pristine, []⟩

def checksum (c : Core) : UInt16 :=
  (c.pristine.bytes.extract 64 c.memory.fileLength).foldl (fun sum b => sum + b.toUInt16) 0

def pc (c : Core) : Except Fault Nat := do return (← c.frames.top).pc

def setPc (a : Nat) : Action Core Unit := onTop (modify ({ · with pc := a }))

def push (v : UInt16) : Action Core Unit := onTop (Frame.push v)

def pop : Action Core UInt16 := onTop Frame.pop

def peek : Action Core UInt16 := onTop (Action.reading Frame.peek)

def depth (c : Core) : Nat := c.frames.length

def globalAddress (m : Memory) (n : UInt8) : Except Fault Nat :=
  if n < 16 then .error (.invalidStory (.notGlobal n))
  else .ok (m.globalVariables.toNat + (n.toNat - 16) * 2)

def readGlobal (m : Memory) (n : UInt8) : Except Fault UInt16 := do
  m.word (← globalAddress m n)

def writeGlobal (n : UInt8) (v : UInt16) : Action Memory Unit := do
  Memory.setWord (← Action.reading (globalAddress · n)) v

def readVariable (n : UInt8) : Action Core UInt16 :=
  if n = 0 then pop
  else if n < 16 then onTop ((·.readLocal (n.toNat - 1)) <$> get)
  else readMemory (readGlobal · n)

def writeVariable (n : UInt8) (v : UInt16) : Action Core Unit :=
  if n = 0 then push v
  else if n < 16 then onTop (modify (Frame.writeLocal (n.toNat - 1) v))
  else onMemory (writeGlobal n v)

/-- Reads a variable that is named by an operand: 0 is the top of the stack, left in place. -/
def readIndirect (n : UInt8) : Action Core UInt16 :=
  if n = 0 then peek else readVariable n

def writeIndirect (n : UInt8) (v : UInt16) : Action Core Unit :=
  if n = 0 then onTop (Frame.replaceTop v) else writeVariable n v

def summary (c : Core) : String :=
  let pc := match c.pc with
    | .ok a => s!"Some({a})"
    | .error _ => "None"
  s!"VM \x7b version: {c.memory.version}, pc: {pc}, call_depth: {c.depth} \x7d"

end Core

end ZMachine
