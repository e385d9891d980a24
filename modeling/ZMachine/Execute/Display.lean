import ZMachine.Execute.Objects

namespace ZMachine.Machine

variable {η : Type}

def printStringAt [Host η] (a : Nat) : Action (Machine η) Unit := do
  output (← readMemory (Memory.text · a))

def unicodeChar? (n : UInt16) : Option Char :=
  if n.toNat < 0xD800 ∨ 0xDFFF < n.toNat then some (Char.ofNat n.toNat) else none

def isControl (c : Char) : Bool := c.toNat < 0x20 ∨ (0x7F ≤ c.toNat ∧ c.toNat < 0xA0)

def tableRow (m : Memory) : Nat → Nat → Except Fault (List Char)
  | _, 0 => return []
  | a, width + 1 => do
    let c := (Zscii.toChar? (← m.byte a).toUInt16).getD '?'
    return c :: (← tableRow m (a + 1) width)

def nextRow (a step : Nat) : Except Fault Nat :=
  if a + step < UInt32.size then .ok (a + step) else .error (.defect (.address (a + step)))

def printRows [Host η] (width step : Nat) : Nat → Nat → Action (Machine η) Unit
  | _, 0 => pure ()
  | a, rows + 1 => do
    output (← readMemory (tableRow · a width))
    let a ← readMemory fun _ => nextRow a step
    if rows ≠ 0 then outputNewline
    printRows width step a rows

def statusRight (isTime : Bool) (first second : UInt16) : String :=
  if isTime then s!"Time: {first}:{decimal 2 second.toNat}"
  else s!"Score: {signed first.toInt16.toInt}  Moves: {second}"

def showStatus [Host η] : Action (Machine η) Unit := do
  let location ← readMemory (Core.readGlobal · 16)
  let name ← if location = 0 then pure [] else readMemory (objectName location)
  let first ← readMemory (Core.readGlobal · 17)
  let second ← readMemory (Core.readGlobal · 18)
  let isTime := (← get).core.memory.flags1.toNat.testBit 1
  perform (.showStatus (String.ofList name) (statusRight isTime first second))

def command [Host η] (c : Screen.Command) : Action (Machine η) Outcome := do
  perform c
  return .proceeded

def print [Host η] (text : List Char) : Action (Machine η) Outcome := do
  output text
  return .proceeded

def executeDisplay [Host η] (i : Instruction) (operands : List UInt16) :
    Action (Machine η) Outcome := do
  let a := operands.getD 0 0
  let b := operands.getD 1 0
  match i.mnemonic with
  | .print =>
    i.text.forM printStringAt
    return .proceeded
  | .printRet =>
    i.text.forM printStringAt
    outputNewline
    returnValue 1
  | .newLine => print ['\n']
  | .showStatus =>
    if (← get).version ≤ 3 then showStatus
    return .proceeded
  | .printAddr =>
    printStringAt a.toNat
    return .proceeded
  | .printPaddr =>
    printStringAt ((← get).core.memory.unpackString a)
    return .proceeded
  | .printChar =>
    match Zscii.toChar? a with
    | some c => print [c]
    | none => return .proceeded
  | .printNum => print (signed a.toInt16.toInt).toList
  | .printTable =>
    let skip := operands.getD 3 0
    printRows b.toNat (b.toNat + skip.toNat) a.toNat (operands.getD 2 1).toNat
    return .proceeded
  | .printUnicode => print [(unicodeChar? a).getD '?']
  | .checkUnicode => storeResult i (if (unicodeChar? a).all isControl then 0 else 3)
  | .splitWindow => command (.splitWindow a)
  | .setWindow => command (.setWindow a.toUInt8)
  | .eraseWindow => command (.eraseWindow a.toInt16)
  | .eraseLine => if a = 1 then command .eraseLine else return .proceeded
  | .setCursor => command (.setCursor a b)
  | .getCursor =>
    let (line, column) ← ask Host.cursor
    onMemory (Memory.setWord a.toNat line)
    onMemory (Memory.setWord (a.toNat + 2) column)
    return .proceeded
  | .setTextStyle => command (.setTextStyle a)
  | .bufferMode => command (.setBufferMode (a ≠ 0))
  | .outputStream =>
    selectStream a.toInt16 b
    return .proceeded
  | .inputStream | .soundEffect | .setTrueColour => return .proceeded
  | .setColour => command (.setColour a b)
  | .setFont => storeResult i (if a ≤ 1 then 1 else 0)
  | other => throw (.invalidStory (.unhandled .display other))

end ZMachine.Machine
