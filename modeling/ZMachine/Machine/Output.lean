import ZMachine.Machine.State
import ZMachine.Text.Zscii

namespace ZMachine.Machine

variable {η : Type}

def codeOf (c : Char) : UInt8 := ((Zscii.ofChar? c).getD Zscii.unknown).toUInt8

def captureChars (table : Nat) : UInt16 → List Char → Action Memory UInt16
  | count, [] => pure count
  | count, c :: rest => do
    Memory.setByte (table + 2 + count.toNat) (codeOf c)
    captureChars table (count + 1) rest

def capture (table : Nat) (text : List Char) : Action Memory Unit := do
  let count ← Action.reading (Memory.word · table)
  let count ← captureChars table count text
  Memory.setWord table count

def output [Host η] (text : List Char) : Action (Machine η) Unit := do
  let streams := (← get).streams
  match streams.tables with
  | table :: _ => onMemory (capture table text)
  | [] => if streams.screen then perform (.print (String.ofList text))

def outputNewline [Host η] : Action (Machine η) Unit := output ['\n']

def openTable (table : Nat) : Action (Machine η) Unit := do
  if tableLimit ≤ (← get).streams.tables.length then throw (.stackOverflow tableLimit)
  onMemory (Memory.setWord table 0)
  modify fun s => { s with streams := { s.streams with tables := table :: s.streams.tables } }

def closeTable : Action (Machine η) Unit :=
  modify fun s => { s with streams := { s.streams with tables := s.streams.tables.tail } }

def selectScreen (on : Bool) : Action (Machine η) Unit :=
  modify fun s => { s with streams := { s.streams with screen := on } }

def selectTranscript (on : Bool) : Action (Machine η) Unit := do
  modify fun s => { s with streams := { s.streams with transcript := on } }
  onMemory (modify fun m => m.setFlags2 (if on then m.flags2 ||| 1 else m.flags2 &&& ~~~1))

def selectStream (stream : Int16) (table : UInt16) : Action (Machine η) Unit :=
  if stream = 1 then selectScreen true
  else if stream = -1 then selectScreen false
  else if stream = 2 then selectTranscript true
  else if stream = -2 then selectTranscript false
  else if stream = 3 then openTable table.toNat
  else if stream = -3 then closeTable
  else pure ()

end ZMachine.Machine
