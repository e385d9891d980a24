import ZMachine.Machine.Flow

namespace ZMachine.Machine

variable {η : Type}

def logicalShift (a : UInt16) (places : Int) : UInt16 :=
  if 0 ≤ places ∧ places ≤ 15 then UInt16.ofNat (a.toNat <<< places.toNat)
  else if -15 ≤ places ∧ places < 0 then UInt16.ofNat (a.toNat >>> (-places).toNat)
  else 0

def arithmeticShift (a : UInt16) (places : Int) : UInt16 :=
  if 15 < places then 0
  else if 0 ≤ places then UInt16.ofNat (a.toNat <<< places.toNat)
  else (Int16.ofInt (a.toInt16.toInt >>> min 15 (-places).toNat)).toUInt16

def adjust (n : UInt8) (by' : Int16) : Action (Machine η) Int16 := do
  let v := (← onCore (Core.readIndirect n)).toInt16 + by'
  onCore (Core.writeIndirect n v.toUInt16)
  return v

/-- A random number from 1 to a positive range; a negative range seeds the dice, and 0 makes them
unpredictable. -/
def random [Host η] (range : Int16) : Action (Machine η) UInt16 :=
  if 0 < range then tell (Host.roll range.toUInt16)
  else if range < 0 then
    tell fun host => (0, Host.seed (UInt64.ofNat range.toInt.natAbs) host)
  else tell fun host => (0, Host.reseed host)

def executeMath [Host η] (i : Instruction) (operands : List UInt16) :
    Action (Machine η) Outcome := do
  let a := operands.getD 0 0
  let b := operands.getD 1 0
  match i.mnemonic with
  | .add => storeResult i (a + b)
  | .sub => storeResult i (a - b)
  | .mul => storeResult i (a * b)
  | .div =>
    if b = 0 then throw .divisionByZero
    storeResult i (a.toInt16 / b.toInt16).toUInt16
  | .mod =>
    if b = 0 then throw .divisionByZero
    storeResult i (a.toInt16 % b.toInt16).toUInt16
  | .or => storeResult i (a ||| b)
  | .and => storeResult i (a &&& b)
  | .not => storeResult i (~~~a)
  | .test => branchOn i (a &&& b = b)
  | .je => branchOn i (operands.tail.contains a)
  | .jl => branchOn i (a.toInt16 < b.toInt16)
  | .jg => branchOn i (b.toInt16 < a.toInt16)
  | .jz => branchOn i (a = 0)
  | .inc =>
    let _ ← adjust a.toUInt8 1
    return .proceeded
  | .dec =>
    let _ ← adjust a.toUInt8 (-1)
    return .proceeded
  | .incChk =>
    let v ← adjust a.toUInt8 1
    branchOn i (b.toInt16 < v)
  | .decChk =>
    let v ← adjust a.toUInt8 (-1)
    branchOn i (v < b.toInt16)
  | .logShift => storeResult i (logicalShift a b.toInt16.toInt)
  | .artShift => storeResult i (arithmeticShift a b.toInt16.toInt)
  | .random =>
    let v ← random a.toInt16
    storeResult i v
  | other => throw (.invalidStory (.unhandled .math other))

end ZMachine.Machine
