import ZMachine.Execute.Display
import ZMachine.Input
import ZMachine.Text.Encode
import ZMachine.Text.Words

/-!
Typed text. A text buffer starts with its capacity; up to version 4 the text follows and ends with
a zero, from version 5 its length stands between. A parse buffer starts with its capacity and the
count of its entries of four bytes; words are not looked up, so an entry has the address 0.
-/

namespace ZMachine.Machine

variable {η : Type}

def keyCode (c : Char) : UInt16 :=
  if c = '\x1b' then 27
  else if c = '\x08' ∨ c = '\x7f' then 8
  else (Zscii.ofChar? c).getD Zscii.unknown

def textStart (version : UInt8) : Nat := if version ≤ 4 then 1 else 2

def textLimit (version capacity : UInt8) : Nat :=
  if version ≤ 4 then capacity.toNat - 1 else capacity.toNat

def lineCodes (line : String) : List UInt8 :=
  let codes := ((trimLineEnd line).toList.flatMap lowerCase).filterMap Zscii.ofChar?
  (codes.filter (· ≠ Zscii.newline)).map UInt16.toUInt8

def storeLine (version : UInt8) (buffer : Nat) (line : String) : Action Memory Unit := do
  let capacity ← Action.reading (Memory.byte · buffer)
  let codes := (lineCodes line).take (textLimit version capacity)
  let start := buffer + textStart version
  Memory.setBytes start codes
  if version ≤ 4 then Memory.setByte (start + codes.length) 0
  else Memory.setByte (buffer + 1) (UInt8.ofNat codes.length)

def bytesUpToZero (m : Memory) : Nat → Nat → Except Fault (List UInt8)
  | _, 0 => return []
  | a, n + 1 => do
    let b ← m.byte a
    if b = 0 then return []
    return b :: (← bytesUpToZero m (a + 1) n)

def bufferText (version : UInt8) (m : Memory) (buffer : Nat) : Except Fault (List UInt8) := do
  let start := buffer + textStart version
  if version ≤ 4 then bytesUpToZero m start (← m.byte buffer).toNat
  else m.slice start (← m.byte (buffer + 1)).toNat

def separators (m : Memory) : Except Fault (List UInt8) := do
  let a := m.dictionary.toNat
  m.slice (a + 1) (← m.byte a).toNat

def storeEntries (offset : Nat) : Nat → List (Nat × Nat) → Action Memory Unit
  | _, [] => pure ()
  | a, (start, length) :: rest => do
    Memory.setWord a 0
    Memory.setByte (a + 2) (UInt8.ofNat length)
    Memory.setByte (a + 3) (UInt8.ofNat (start + offset))
    storeEntries offset (a + 4) rest

/-- Splits a text buffer into words and enters them into a parse buffer, or counts them only. -/
def tokenise (version : UInt8) (buffer parse : Nat) (countOnly : Bool) : Action Memory Unit := do
  let text ← Action.reading fun m => bufferText version m buffer
  let separators ← Action.reading separators
  let capacity ← Action.reading (Memory.byte · parse)
  let words := (splitWords text separators).take capacity.toNat
  Memory.setByte (parse + 1) (UInt8.ofNat words.length)
  if countOnly then return
  storeEntries (textStart version) (parse + 2) words

def setWords (a : Nat) : List UInt16 → Action Memory Unit
  | [] => pure ()
  | w :: rest => do
    Memory.setWord a w
    setWords (a + 2) rest

def encodeAt (version : UInt8) (source n dest : Nat) : Action Memory Unit := do
  let bytes ← Action.reading (Memory.slice · source n)
  let A ← Action.reading Alphabets.ofMemory
  setWords dest (encodeWord A version (bytes.map fun b => Char.ofNat b.toNat))

def executeInput [Host η] (i : Instruction) (operands : List UInt16) :
    Action (Machine η) Outcome := do
  let version := (← get).version
  let operand (k : Nat) := operands.getD k 0
  match i.mnemonic with
  | .sread | .aread =>
    if version ≤ 3 then showStatus
    let buffer := (operand 0).toNat
    let parse := (operand 1).toNat
    let line ← ask Host.readLine
    onMemory (storeLine version buffer line)
    if parse ≠ 0 then onMemory (tokenise version buffer parse false)
    storeResult i Zscii.newline
  | .readChar =>
    let c ← ask Host.readKey
    storeResult i (keyCode c)
  | .tokenise =>
    onMemory (tokenise version (operand 0).toNat (operand 1).toNat (operand 3 ≠ 0))
    return .proceeded
  | .encodeText =>
    onMemory (encodeAt version ((operand 0).toNat + (operand 2).toNat) (operand 1).toNat
      (operand 3).toNat)
    return .proceeded
  | other => throw (.invalidStory (.unhandled .input other))

end ZMachine.Machine
