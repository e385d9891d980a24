import ZMachine.Numeral
import ZMachine.Opcode.Table

namespace ZMachine

inductive OperandKind where
  | large | small | variable
  deriving DecidableEq

namespace OperandKind

/-- The kind that two bits stand for; 3 means that the operand is left out. -/
def ofBits? (bits : Nat) : Option OperandKind :=
  match bits % 4 with
  | 0 => some .large
  | 1 => some .small
  | 2 => some .variable
  | _ => none

def size : OperandKind → Nat
  | .large => 2
  | .small => 1
  | .variable => 1

end OperandKind

structure Operand where
  kind : OperandKind
  raw : UInt16
  deriving DecidableEq

/-- Where to go when the condition is `onTrue`. Offsets 0 and 1 return false and true. -/
structure Branch where
  onTrue : Bool
  offset : Int
  deriving DecidableEq

structure Instruction where
  address : Nat
  descriptor : Descriptor
  operands : List Operand
  store : Option UInt8
  branch : Option Branch
  /-- Address of the string that stands in the instruction. -/
  text : Option Nat
  /-- Address of the instruction that follows. -/
  next : Nat
  deriving DecidableEq

def Operand.text (o : Operand) : String :=
  match o.kind with
  | .variable => "V" ++ hex 2 o.raw.toNat
  | _ => "#" ++ hex 4 o.raw.toNat

def Branch.text (b : Branch) : String :=
  let target := if b.offset = 0 then "RFALSE" else if b.offset = 1 then "RTRUE" else withSign b.offset
  (if b.onTrue then "TRUE " else "FALSE ") ++ target

namespace Instruction

def mnemonic (i : Instruction) : Mnemonic := i.descriptor.mnemonic

def size (i : Instruction) : Nat := i.next - i.address

def rawOperands (i : Instruction) : List UInt16 := i.operands.map Operand.raw

def listing (i : Instruction) : String :=
  let operands := if i.operands = [] then "" else " " ++ ", ".intercalate (i.operands.map Operand.text)
  let store := (i.store.map fun v => " -> V" ++ hex 2 v.toNat).getD ""
  let branch := (i.branch.map fun b => s!" [{b.text}]").getD ""
  i.mnemonic.name ++ operands ++ store ++ branch

end Instruction

end ZMachine
