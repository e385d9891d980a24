import ZMachine.Instruction.Basic
import ZMachine.Text.Packing

namespace ZMachine

abbrev Fetch (α : Type) := StateT Nat (Except Fault) α

namespace Fetch

variable (m : Memory)

def byte : Fetch UInt8 := fun a => do return (← m.byte a, a + 1)

def word : Fetch UInt16 := fun a => do return (← m.word a, a + 2)

def operand (kind : OperandKind) : Fetch Operand := do
  match kind with
  | .large => return ⟨kind, ← word m⟩
  | _ => return ⟨kind, (← byte m).toUInt16⟩

def operands : List OperandKind → Fetch (List Operand)
  | [] => return []
  | kind :: rest => do return (← operand m kind) :: (← operands rest)

/-- One byte with an offset of six bits, or two with a signed one of fourteen. -/
def branch : Fetch Branch := do
  let first := (← byte m).toNat
  let onTrue := decide (128 ≤ first)
  if first.testBit 6 then return ⟨onTrue, first % 64⟩
  let value := first % 64 * 256 + (← byte m).toNat
  return ⟨onTrue, if value < 8192 then value else (value : Int) - 16384⟩

def string : Fetch Nat := fun a => do return (a, a + 2 * (← m.wordCount a))

end Fetch

def longFormKinds (opcode : Nat) : List OperandKind :=
  let kind (i : Nat) := if opcode.testBit i then OperandKind.variable else .small
  [kind 6, kind 5]

def kindsOfByte (types : Nat) : List OperandKind :=
  let kind (k : Nat) := OperandKind.ofBits? (types / k)
  (([kind 64, kind 16, kind 4, kind 1].takeWhile Option.isSome).filterMap id)

def hasTwoTypeBytes (mnemonic : Mnemonic) : Bool := mnemonic = .callVs2 ∨ mnemonic = .callVn2

def hasText (mnemonic : Mnemonic) : Bool := mnemonic = .print ∨ mnemonic = .printRet

namespace Fetch

variable (m : Memory)

def descriptor (version : UInt8) : Fetch (UInt8 × Descriptor) := do
  let opcode ← byte m
  if opcode = 0xBE ∧ 5 ≤ version then return (opcode, .extended (← byte m))
  return (opcode, .normal version opcode)

def kinds (opcode : UInt8) (d : Descriptor) : Fetch (List OperandKind) := do
  match d.form with
  | .op0 => return []
  | .op1 => return (OperandKind.ofBits? (opcode.toNat / 16)).toList
  | .op2 => return longFormKinds opcode.toNat
  | .var | .ext =>
    let first := kindsOfByte (← byte m).toNat
    if hasTwoTypeBytes d.mnemonic then
      let second := kindsOfByte (← byte m).toNat
      return if first.length = 4 then first ++ second else first
    return first

def instruction (version : UInt8) : Fetch Instruction := do
  let address ← get
  let (opcode, descriptor) ← descriptor m version
  let operands ← operands m (← kinds m opcode descriptor)
  let store ← if descriptor.store then some <$> byte m else pure none
  let branch ← if descriptor.branch then some <$> branch m else pure none
  let text ← if hasText descriptor.mnemonic then some <$> string m else pure none
  return { address, descriptor, operands, store, branch, text, next := ← get }

end Fetch

def Memory.instruction (m : Memory) (version : UInt8) (a : Nat) : Except Fault Instruction :=
  (·.1) <$> Fetch.instruction m version a

def Memory.branch (m : Memory) (a : Nat) : Except Fault (Branch × Nat) := do
  let (branch, next) ← Fetch.branch m a
  return (branch, next - a)

end ZMachine
