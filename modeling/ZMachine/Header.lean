import ZMachine.Memory

namespace ZMachine

structure PackingRule where
  multiplier : Nat
  /-- Eight times an offset field of the header is added. -/
  usesOffsets : Bool
  deriving DecidableEq

def packingRule (version : UInt8) : PackingRule :=
  if version ≤ 3 then ⟨2, false⟩
  else if version ≤ 5 then ⟨4, false⟩
  else if version ≤ 7 then ⟨4, true⟩
  else ⟨8, false⟩

def lengthUnit (version : UInt8) : Nat :=
  if 1 ≤ version ∧ version ≤ 3 then 2
  else if 4 ≤ version ∧ version ≤ 5 then 4
  else 8

namespace Memory

def version (m : Memory) : UInt8 := m.headerByte 0x00
def flags1 (m : Memory) : UInt8 := m.headerByte 0x01
def release (m : Memory) : UInt16 := m.headerWord 0x02
def highMemoryBase (m : Memory) : UInt16 := m.headerWord 0x04
def initialPc (m : Memory) : UInt16 := m.headerWord 0x06
def dictionary (m : Memory) : UInt16 := m.headerWord 0x08
def objectTable (m : Memory) : UInt16 := m.headerWord 0x0A
def globalVariables (m : Memory) : UInt16 := m.headerWord 0x0C
def staticMemoryBase (m : Memory) : UInt16 := m.headerWord 0x0E
def flags2 (m : Memory) : UInt16 := m.headerWord 0x10
def abbreviationsTable (m : Memory) : UInt16 := m.headerWord 0x18
def fileLength (m : Memory) : Nat := (m.headerWord 0x1A).toNat * lengthUnit m.version
def checksumField (m : Memory) : UInt16 := m.headerWord 0x1C
def routinesOffset (m : Memory) : UInt16 := m.headerWord 0x28
def stringsOffset (m : Memory) : UInt16 := m.headerWord 0x2A
def terminatingCharactersTable (m : Memory) : UInt16 := m.headerWord 0x2E
def alphabetTable (m : Memory) : UInt16 := if 5 ≤ m.version then m.headerWord 0x34 else 0
def headerExtensionTable (m : Memory) : UInt16 := m.headerWord 0x36

def serial (m : Memory) : String :=
  String.ofList ([0x12, 0x13, 0x14, 0x15, 0x16, 0x17].map fun k =>
    Char.ofNat (m.headerByte k).toNat)

def setFlags1 (v : UInt8) (m : Memory) : Memory := m.setHeaderByte 0x01 v

def setFlags2 (v : UInt16) (m : Memory) : Memory := m.setHeaderWord 0x10 v

def unpack (m : Memory) (offset packed : UInt16) : Nat :=
  let rule := packingRule m.version
  packed.toNat * rule.multiplier + if rule.usesOffsets then 8 * offset.toNat else 0

def unpackRoutine (m : Memory) (packed : UInt16) : Nat := m.unpack m.routinesOffset packed

def unpackString (m : Memory) (packed : UInt16) : Nat := m.unpack m.stringsOffset packed

def headerText (m : Memory) : String :=
  let address (w : UInt16) := "0x" ++ hex 4 w.toNat
  "\n" ++ String.join [
    s!"Z-code version:           {m.version}\n",
    s!"Interpreter flags:        0x{hex 2 m.flags1.toNat}\n",
    s!"Release number:           {m.release}\n",
    s!"Size of resident memory:  {address m.highMemoryBase}\n",
    s!"Start PC:                 {address m.initialPc}\n",
    s!"Dictionary address:       {address m.dictionary}\n",
    s!"Object table address:     {address m.objectTable}\n",
    s!"Global variables address: {address m.globalVariables}\n",
    s!"Size of dynamic memory:   {address m.staticMemoryBase}\n",
    s!"Game flags:               {address m.flags2}\n",
    s!"Serial number:            {m.serial}\n",
    s!"Abbreviations address:    {address m.abbreviationsTable}\n",
    s!"File size:                0x{hex 4 m.fileLength}\n",
    s!"Checksum:                 {address m.checksumField}\n"]

end Memory

end ZMachine
