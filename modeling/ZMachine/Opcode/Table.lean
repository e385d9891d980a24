import ZMachine.Opcode.Mnemonic

/-!
What each opcode byte means in each version. The byte fixes how the operands are written and a
number within a group; several bytes share a number where they differ in their operand types
only. Bytes without a meaning still have an entry, so that they can be stepped over.
-/

namespace ZMachine

inductive Form where
  | op0 | op1 | op2 | var | ext
  deriving DecidableEq

def Form.name : Form → String
  | .op0 => "0OP"
  | .op1 => "1OP"
  | .op2 => "2OP"
  | .var => "VAR"
  | .ext => "EXT"

structure Operation where
  mnemonic : Mnemonic
  /-- The first version with this meaning. -/
  minVersion : UInt8
  store : Bool
  branch : Bool
  deriving DecidableEq

namespace Operation

def plain (mnemonic : Mnemonic) (since : UInt8) : Operation := ⟨mnemonic, since, false, false⟩
def storing (mnemonic : Mnemonic) (since : UInt8) : Operation := ⟨mnemonic, since, true, false⟩
def branching (mnemonic : Mnemonic) (since : UInt8) : Operation := ⟨mnemonic, since, false, true⟩
def storingBranching (mnemonic : Mnemonic) (since : UInt8) : Operation :=
  ⟨mnemonic, since, true, true⟩
def unassigned : Operation := plain .unassigned 1

def ofTwo : Nat → Operation
  | 0x01 => .branching .je 1
  | 0x02 => .branching .jl 1
  | 0x03 => .branching .jg 1
  | 0x04 => .branching .decChk 1
  | 0x05 => .branching .incChk 1
  | 0x06 => .branching .jin 1
  | 0x07 => .branching .test 1
  | 0x08 => .storing .or 1
  | 0x09 => .storing .and 1
  | 0x0A => .branching .testAttr 1
  | 0x0B => .plain .setAttr 1
  | 0x0C => .plain .clearAttr 1
  | 0x0D => .plain .store 1
  | 0x0E => .plain .insertObj 1
  | 0x0F => .storing .loadw 1
  | 0x10 => .storing .loadb 1
  | 0x11 => .storing .getProp 1
  | 0x12 => .storing .getPropAddr 1
  | 0x13 => .storing .getNextProp 1
  | 0x14 => .storing .add 1
  | 0x15 => .storing .sub 1
  | 0x16 => .storing .mul 1
  | 0x17 => .storing .div 1
  | 0x18 => .storing .mod 1
  | 0x19 => .storing .call2s 4
  | 0x1A => .plain .call2n 5
  | 0x1B => .plain .setColour 5
  | 0x1C => .plain .throwFrame 5
  | _ => .unassigned

def ofOne (version : UInt8) : Nat → Operation
  | 0x00 => .branching .jz 1
  | 0x01 => .storingBranching .getSibling 1
  | 0x02 => .storingBranching .getChild 1
  | 0x03 => .storing .getParent 1
  | 0x04 => .storing .getPropLen 1
  | 0x05 => .plain .inc 1
  | 0x06 => .plain .dec 1
  | 0x07 => .plain .printAddr 1
  | 0x08 => .storing .call1s 4
  | 0x09 => .plain .removeObj 1
  | 0x0A => .plain .printObj 1
  | 0x0B => .plain .ret 1
  | 0x0C => .plain .jump 1
  | 0x0D => .plain .printPaddr 1
  | 0x0E => .storing .load 1
  | 0x0F => if version < 5 then .storing .not 1 else .plain .call1n 5
  | _ => .unassigned

def ofNone (version : UInt8) : Nat → Operation
  | 0x00 => .plain .rtrue 1
  | 0x01 => .plain .rfalse 1
  | 0x02 => .plain .print 1
  | 0x03 => .plain .printRet 1
  | 0x04 => .plain .nop 1
  | 0x05 => if version < 4 then .branching .save 1 else .storing .save 4
  | 0x06 => if version < 4 then .branching .restore 1 else .storing .restore 4
  | 0x07 => .plain .restart 1
  | 0x08 => .plain .retPopped 1
  | 0x09 => if version < 5 then .plain .pop 1 else .storing .catchFrame 5
  | 0x0A => .plain .quit 1
  | 0x0B => .plain .newLine 1
  | 0x0C => .plain .showStatus 3
  | 0x0D => .branching .verify 3
  | 0x0F => .branching .piracy 5
  | _ => .unassigned

def ofAny (version : UInt8) : Nat → Operation
  | 0x00 => .storing .callVs 1
  | 0x01 => .plain .storew 1
  | 0x02 => .plain .storeb 1
  | 0x03 => .plain .putProp 1
  | 0x04 => if version < 5 then .plain .sread 1 else .storing .aread 5
  | 0x05 => .plain .printChar 1
  | 0x06 => .plain .printNum 1
  | 0x07 => .storing .random 1
  | 0x08 => .plain .push 1
  | 0x09 => if version < 6 then .plain .pull 1 else .storing .pull 6
  | 0x0A => .plain .splitWindow 3
  | 0x0B => .plain .setWindow 3
  | 0x0C => .storing .callVs2 4
  | 0x0D => .plain .eraseWindow 4
  | 0x0E => .plain .eraseLine 4
  | 0x0F => .plain .setCursor 4
  | 0x10 => .plain .getCursor 4
  | 0x11 => .plain .setTextStyle 4
  | 0x12 => .plain .bufferMode 4
  | 0x13 => .plain .outputStream 3
  | 0x14 => .plain .inputStream 3
  | 0x15 => .plain .soundEffect 3
  | 0x16 => .storing .readChar 4
  | 0x17 => .storingBranching .scanTable 4
  | 0x18 => .storing .not 5
  | 0x19 => .plain .callVn 5
  | 0x1A => .plain .callVn2 5
  | 0x1B => .plain .tokenise 5
  | 0x1C => .plain .encodeText 5
  | 0x1D => .plain .copyTable 5
  | 0x1E => .plain .printTable 5
  | 0x1F => .branching .checkArgCount 5
  | _ => .unassigned

def ofExtended : Nat → Operation
  | 0x00 => .storing .save 5
  | 0x01 => .storing .restore 5
  | 0x02 => .storing .logShift 5
  | 0x03 => .storing .artShift 5
  | 0x04 => .storing .setFont 5
  | 0x05 => .plain .drawPicture 6
  | 0x06 => .branching .pictureData 6
  | 0x07 => .plain .erasePicture 6
  | 0x08 => .plain .setMargins 6
  | 0x09 => .storing .saveUndo 5
  | 0x0A => .storing .restoreUndo 5
  | 0x0B => .plain .printUnicode 5
  | 0x0C => .storing .checkUnicode 5
  | 0x0D => .plain .setTrueColour 5
  | 0x10 => .plain .moveWindow 6
  | 0x11 => .plain .windowSize 6
  | 0x12 => .plain .windowStyle 6
  | 0x13 => .storing .getWindProp 6
  | 0x14 => .plain .scrollWindow 6
  | 0x15 => .plain .popStack 6
  | 0x16 => .plain .readMouse 6
  | 0x17 => .plain .mouseWindow 6
  | 0x18 => .branching .pushStack 6
  | 0x19 => .plain .putWindProp 6
  | 0x1A => .plain .printForm 6
  | 0x1B => .branching .makeMenu 6
  | 0x1C => .plain .pictureTable 6
  | 0x1D => .storing .bufferScreen 6
  | _ => .unassigned

end Operation

structure Descriptor extends Operation where
  form : Form
  raw : UInt8
  deriving DecidableEq

namespace Descriptor

def isAssigned (d : Descriptor) : Bool := d.mnemonic ≠ .unassigned

def number (d : Descriptor) : Nat :=
  match d.form with
  | .op0 | .op2 | .var => d.raw.toNat % 32
  | .op1 => d.raw.toNat % 16
  | .ext => d.raw.toNat

def normal (version raw : UInt8) : Descriptor :=
  let n := raw.toNat
  if n < 0x80 then ⟨.ofTwo (n % 32), .op2, raw⟩
  else if n < 0xB0 then ⟨.ofOne version (n % 16), .op1, raw⟩
  else if n < 0xC0 then ⟨.ofNone version (n % 16), .op0, raw⟩
  else if n < 0xE0 then ⟨.ofTwo (n % 32), .var, raw⟩
  else ⟨.ofAny version (n % 32), .var, raw⟩

def extended (raw : UInt8) : Descriptor := ⟨.ofExtended raw.toNat, .ext, raw⟩

def servingVersion (version : UInt8) : UInt8 := max 1 (min version 8)

end Descriptor

end ZMachine
