import ZMachine.Execute.Control
import ZMachine.Execute.Math
import ZMachine.Execute.Reading
import ZMachine.Execute.Routine
import ZMachine.Execute.Table

namespace ZMachine

/-- The family of an operation; `none` if it is not supported. -/
def Mnemonic.family? : Mnemonic → Option Family
  | .add | .sub | .mul | .div | .mod | .or | .and | .not | .test | .je | .jl | .jg | .jz | .inc
  | .dec | .incChk | .decChk | .logShift | .artShift | .random => some .math
  | .loadw | .loadb | .storew | .storeb | .store | .load | .copyTable | .scanTable => some .memory
  | .push | .pull | .pop | .popStack | .pushStack | .retPopped | .ret | .rtrue | .rfalse | .call1s
  | .call1n | .call2s | .call2n | .callVs | .callVs2 | .callVn | .callVn2 | .catchFrame
  | .throwFrame | .checkArgCount => some .stack
  | .jin | .testAttr | .setAttr | .clearAttr | .insertObj | .removeObj | .getProp | .getPropAddr
  | .getNextProp | .getPropLen | .getSibling | .getChild | .getParent | .putProp
  | .printObj => some .object
  | .print | .printRet | .newLine | .printAddr | .printPaddr | .printChar | .printNum
  | .printUnicode | .checkUnicode | .printTable | .showStatus | .splitWindow | .setWindow
  | .eraseWindow | .eraseLine | .setCursor | .getCursor | .setTextStyle | .bufferMode
  | .outputStream | .inputStream | .soundEffect | .setColour | .setTrueColour
  | .setFont => some .display
  | .sread | .aread | .readChar | .tokenise | .encodeText => some .input
  | .jump | .nop | .quit | .restart | .verify | .piracy | .save | .restore | .saveUndo
  | .restoreUndo => some .control
  | _ => none

namespace Machine

variable {η : Type}

def resolveOperand (o : Operand) : Action (Machine η) UInt16 :=
  match o.kind with
  | .variable => onCore (Core.readVariable o.raw.toUInt8)
  | _ => return o.raw

def resolveOperands : List Operand → Action (Machine η) (List UInt16)
  | [] => return []
  | o :: rest => do return (← resolveOperand o) :: (← resolveOperands rest)

def executeFamily [Host η] (family : Family) (i : Instruction) (operands : List UInt16) :
    Action (Machine η) Outcome :=
  match family with
  | .math => executeMath i operands
  | .memory => executeTable i operands
  | .stack => executeRoutine i operands
  | .object => executeObject i operands
  | .display => executeDisplay i operands
  | .input => executeInput i operands
  | .control => executeControl i operands

def execute [Host η] (i : Instruction) : Action (Machine η) Outcome := do
  let operands ← resolveOperands i.operands
  if (← get).version < i.descriptor.minVersion then return ← passOver i
  match i.mnemonic.family? with
  | none => passOver i
  | some family => executeFamily family i operands

end Machine

end ZMachine
