import ZMachine.Header
import ZMachine.Proofs.Action

namespace ZMachine.Memory

theorem headerByte_setHeaderWord (m : Memory) {j : Fin 64} {k : Fin 63} (w : UInt16)
    (h : j.val ≠ k.val) (h' : j.val ≠ k.val + 1) :
    (m.setHeaderWord k w).headerByte j = m.headerByte j := by
  simp only [headerByte, setHeaderWord, set]
  rw [Array.getElem_set, if_neg h'.symm, Array.getElem_set, if_neg h.symm]

theorem headerWord_setHeaderWord (m : Memory) {j k : Fin 63} (w : UInt16)
    (h : j.val + 1 < k.val ∨ k.val + 1 < j.val) :
    (m.setHeaderWord k w).headerWord j = m.headerWord j := by
  simp only [headerWord, setHeaderWord, set]
  iterate 4 rw [Array.getElem_set, if_neg (by omega)]

theorem version_setFlags2 (m : Memory) (w : UInt16) : (m.setFlags2 w).version = m.version :=
  m.headerByte_setHeaderWord w (by decide) (by decide)

theorem initialPc_setFlags2 (m : Memory) (w : UInt16) : (m.setFlags2 w).initialPc = m.initialPc :=
  m.headerWord_setHeaderWord w (by decide)

theorem unpackRoutine_setFlags2 (m : Memory) (w packed : UInt16) :
    (m.setFlags2 w).unpackRoutine packed = m.unpackRoutine packed := by
  have offset : (m.setFlags2 w).routinesOffset = m.routinesOffset :=
    m.headerWord_setHeaderWord w (by decide)
  rw [unpackRoutine, unpackRoutine, unpack, unpack, version_setFlags2, offset]

end ZMachine.Memory
