import ZMachine.Host
import ZMachine.Machine.Core

namespace ZMachine

/-- Where output goes. The innermost table takes it all; without a table it goes to the screen. -/
structure Streams where
  screen : Bool := true
  transcript : Bool := false
  /-- Addresses of the tables that capture output, the innermost first. -/
  tables : List Nat := []
  deriving DecidableEq

structure Snapshot where
  /-- Dynamic memory. -/
  memory : Array UInt8
  frames : CallStack
  /-- The variable that learns of the outcome. -/
  store : Option UInt8
  deriving DecidableEq

structure Machine (η : Type) where
  core : Core
  /-- The version that the machine was started with. -/
  version : UInt8
  streams : Streams := {}
  /-- The newest first. -/
  undo : List Snapshot := []
  /-- Instructions executed. -/
  count : Nat := 0
  quit : Bool := false
  host : η

namespace Machine

def tableLimit : Nat := 16

def undoLimit : Nat := 10

variable {η α : Type}

def onCore (act : Action Core α) : Action (Machine η) α :=
  fun ⟨core, version, streams, undo, count, quit, host⟩ =>
    match act core with
    | .ok a core => .ok a ⟨core, version, streams, undo, count, quit, host⟩
    | .error e core => .error e ⟨core, version, streams, undo, count, quit, host⟩

def onMemory (act : Action Memory α) : Action (Machine η) α := onCore (Core.onMemory act)

def readMemory (f : Memory → Except Fault α) : Action (Machine η) α := onCore (Core.readMemory f)

def ask (act : HostAction η α) : Action (Machine η) α :=
  fun ⟨core, version, streams, undo, count, quit, host⟩ =>
    match act host with
    | .ok a host => .ok a ⟨core, version, streams, undo, count, quit, host⟩
    | .error e host => .error (.host e) ⟨core, version, streams, undo, count, quit, host⟩

def tell (act : η → α × η) : Action (Machine η) α :=
  fun ⟨core, version, streams, undo, count, quit, host⟩ =>
    let (a, host) := act host
    .ok a ⟨core, version, streams, undo, count, quit, host⟩

def perform [Host η] (c : Screen.Command) : Action (Machine η) Unit := ask (Host.perform c)

def saturatingMul (a : UInt16) (b : UInt8) : UInt16 :=
  UInt16.ofNat (min 65535 (a.toNat * b.toNat))

def byteOf (n : UInt16) : UInt8 := UInt8.ofNat (min 255 n.toNat)

def publish (version : UInt8) (screen : Screen.Capabilities) (m : Memory) : Memory :=
  let m := m.setHeaderWord 0x32 0x0101
  let m :=
    if version ≤ 3 then
      -- a status line and a split screen
      m.setFlags1 ((m.flags1 &&& ~~~0x10) ||| 0x20)
    else
      -- bold, italic and fixed pitch; no timed input
      let styles := (m.flags1 ||| 0x1C) &&& ~~~0x80
      let flags := if screen.colour then styles ||| 0x01 else styles &&& ~~~0x01
      let m := m.setHeaderByte 0x1E 6
      let m := m.setHeaderByte 0x1F 65
      let m := m.setHeaderByte 0x20 (byteOf screen.lines)
      let m := m.setHeaderByte 0x21 (byteOf screen.columns)
      m.setFlags1 flags
  if version < 5 then m
  else
    let m := m.setHeaderWord 0x22 (saturatingMul screen.columns screen.characterWidth)
    let m := m.setHeaderWord 0x24 (saturatingMul screen.lines screen.lineHeight)
    let m := m.setHeaderByte 0x26 (if version = 6 then screen.lineHeight else screen.characterWidth)
    let m := m.setHeaderByte 0x27 (if version = 6 then screen.characterWidth else screen.lineHeight)
    -- no pictures, mouse, sound or menus
    m.setFlags2 (m.flags2 &&& ~~~0x01A8)

def publishHeader [Host η] : Action (Machine η) Unit :=
  fun ⟨⟨memory, pristine, frames⟩, version, streams, undo, count, quit, host⟩ =>
    let memory := publish version (Host.capabilities host) memory
    .ok () ⟨⟨memory, pristine, frames⟩, version, streams, undo, count, quit, host⟩

def start [Host η] (core : Core) (host : η) : Machine η :=
  let version := core.memory.version
  { core := { core with memory := publish version (Host.capabilities host) core.memory }
    version
    host }

def boot [Host η] (image : Array UInt8) (host : η) : Except Fault (Machine η) := do
  return start (← Core.boot (← Memory.load image)) host

end Machine

end ZMachine
