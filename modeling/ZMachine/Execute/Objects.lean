import ZMachine.Machine.Flow
import ZMachine.Machine.Output
import ZMachine.Object.Attribute
import ZMachine.Object.Property
import ZMachine.Object.Tree
import ZMachine.Text.Decode

namespace ZMachine.Machine

variable {η : Type}

def objectName (obj : UInt16) (m : Memory) : Except Fault (List Char) := do
  match ← m.objects.shortName? m obj with
  | none => return []
  | some a => m.text a

def readObjects {α : Type} (f : ObjectTable → Memory → Except Fault α) : Action (Machine η) α :=
  readMemory fun m => f m.objects m

def changeObjects (f : ObjectTable → Action Memory Unit) : Action (Machine η) Outcome := do
  onMemory fun m => f m.objects m
  return .proceeded

def passOver (i : Instruction) : Action (Machine η) Outcome := do
  storeTo i.store 0
  branchOn i false

def executeObject [Host η] (i : Instruction) (operands : List UInt16) :
    Action (Machine η) Outcome := do
  let obj := operands.getD 0 0
  let b := operands.getD 1 0
  if obj = 0 ∧ i.mnemonic ≠ .getPropLen then return ← passOver i
  match i.mnemonic with
  | .getSibling =>
    let v ← readObjects (·.sibling · obj)
    storeTo i.store v
    branchOn i (v ≠ 0)
  | .getChild =>
    let v ← readObjects (·.child · obj)
    storeTo i.store v
    branchOn i (v ≠ 0)
  | .getParent =>
    let v ← readObjects (·.parent · obj)
    storeResult i v
  | .getPropLen =>
    let n ← readObjects (·.propertyLength · obj.toNat)
    storeResult i (UInt16.ofNat n)
  | .removeObj => changeObjects (·.remove obj)
  | .printObj =>
    let name ← readMemory (objectName obj)
    output name
    return .proceeded
  | .jin =>
    let v ← readObjects (·.parent · obj)
    branchOn i (v = b)
  | .testAttr =>
    let set ← readObjects (·.testAttribute · obj b)
    branchOn i set
  | .setAttr => changeObjects (·.setAttribute obj b)
  | .clearAttr => changeObjects (·.clearAttribute obj b)
  | .insertObj => if b = 0 then return .proceeded else changeObjects (·.insert obj b)
  | .getProp =>
    let v ← readObjects (·.property · obj b.toUInt8)
    storeResult i v
  | .getPropAddr =>
    let a ← readObjects (·.propertyAddress · obj b.toUInt8)
    storeResult i (UInt16.ofNat a)
  | .getNextProp =>
    let n ← readObjects (·.nextProperty · obj b.toUInt8)
    storeResult i n.toUInt16
  | .putProp => changeObjects (·.setProperty obj b.toUInt8 (operands.getD 2 0))
  | other => throw (.invalidStory (.unhandled .object other))

end ZMachine.Machine
