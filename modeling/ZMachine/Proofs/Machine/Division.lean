import ZMachine.Proofs.Instruction.Shape
import ZMachine.Proofs.Machine.Step

namespace ZMachine

namespace Machine

variable {η : Type} [Host η] {s t : Machine η} {i : Instruction} {operands : List UInt16}

end Machine

end ZMachine
