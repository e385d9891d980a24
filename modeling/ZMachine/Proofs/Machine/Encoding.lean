import ZMachine.Proofs.Instruction.Encoding
import ZMachine.Session

namespace ZMachine

variable {η : Type} {i j : Instruction}

namespace Machine

theorem resolveOperand_congr {o o' : Operand} (h : o.Agrees o') :
    (resolveOperand o : Action (Machine η) UInt16) = resolveOperand o' := by
  obtain ⟨kind, raw⟩ := o
  obtain ⟨kind', raw'⟩ := o'
  obtain ⟨rfl, hkind⟩ := h
  cases kind <;> cases kind' <;> first
    | rfl
    | simp at hkind

theorem resolveOperands_congr {os os' : List Operand} (h : List.Forall₂ Operand.Agrees os os') :
    (resolveOperands os : Action (Machine η) (List UInt16)) = resolveOperands os' := by
  induction h with
  | nil => rfl
  | cons ho _ ih => rw [resolveOperands, resolveOperands, resolveOperand_congr ho, ih]

variable (h : i.Agrees j)

include h

theorem storeResult_congr : (storeResult i : UInt16 → Action (Machine η) Outcome) = storeResult j := by
  funext v
  rw [storeResult, storeResult, h.store]

theorem jumpBy_congr : (jumpBy i : Int → Action (Machine η) Outcome) = jumpBy j := by
  funext offset
  rw [jumpBy, jumpBy, h.next]

theorem branchOn_congr : (branchOn i : Bool → Action (Machine η) Outcome) = branchOn j := by
  funext condition
  rw [branchOn, branchOn, h.branch, jumpBy_congr h]

theorem passOver_congr : (passOver i : Action (Machine η) Outcome) = passOver j := by
  rw [passOver, passOver, h.store, branchOn_congr h]

theorem executeTable_congr (operands : List UInt16) :
    (executeTable i operands : Action (Machine η) Outcome) = executeTable j operands := by
  simp only [executeTable, h.mnemonic, h.store, storeResult_congr h, branchOn_congr h]

theorem executeRoutine_congr (operands : List UInt16) :
    (executeRoutine i operands : Action (Machine η) Outcome) = executeRoutine j operands := by
  simp only [executeRoutine, h.mnemonic, h.store, storeResult_congr h, branchOn_congr h]

variable [Host η]

theorem executeMath_congr (operands : List UInt16) :
    (executeMath i operands : Action (Machine η) Outcome) = executeMath j operands := by
  simp only [executeMath, h.mnemonic, storeResult_congr h, branchOn_congr h]

theorem executeObject_congr (operands : List UInt16) :
    (executeObject i operands : Action (Machine η) Outcome) = executeObject j operands := by
  simp only [executeObject, h.mnemonic, h.store, storeResult_congr h, branchOn_congr h, passOver_congr h]

theorem executeDisplay_congr (operands : List UInt16) :
    (executeDisplay i operands : Action (Machine η) Outcome) = executeDisplay j operands := by
  simp only [executeDisplay, h.mnemonic, h.text, storeResult_congr h]

theorem executeInput_congr (operands : List UInt16) :
    (executeInput i operands : Action (Machine η) Outcome) = executeInput j operands := by
  simp only [executeInput, h.mnemonic, storeResult_congr h]

theorem executeControl_congr (operands : List UInt16) :
    (executeControl i operands : Action (Machine η) Outcome) = executeControl j operands := by
  simp only [executeControl, h.mnemonic, h.store, storeResult_congr h, branchOn_congr h, jumpBy_congr h]

theorem executeFamily_congr (family : Family) (operands : List UInt16) :
    (executeFamily family i operands : Action (Machine η) Outcome) = executeFamily family j operands := by
  cases family with
  | math => exact executeMath_congr h operands
  | memory => exact executeTable_congr h operands
  | stack => exact executeRoutine_congr h operands
  | object => exact executeObject_congr h operands
  | display => exact executeDisplay_congr h operands
  | input => exact executeInput_congr h operands
  | control => exact executeControl_congr h operands

theorem execute_congr : (execute i : Action (Machine η) Outcome) = execute j := by
  unfold execute
  rw [resolveOperands_congr h.operands, h.minVersion, h.mnemonic, passOver_congr h]
  simp only [executeFamily_congr h]

omit h

/-- Two operands may have a byte of their own for their kinds, and a small constant may be written as
a large one: the instructions that are read agree, and instructions that agree are executed alike. -/
theorem encodings_alike :
    (∀ (m m' : Memory) (version x y : UInt8) (a k : Nat) (first second : Bool) (tail : List UInt8),
      k < 32 → (Operation.ofTwo k).IsTail tail → m.Shows a (variableForm k first second x y ++ tail) →
      m'.Shows (a + 1) (longForm k first second x y ++ tail) →
      ∃ i j, m.instruction version a = .ok i ∧ m'.instruction version (a + 1) = .ok j ∧ i.Agrees j ∧
        i.operands = [⟨byteKind first, x.toUInt16⟩, ⟨byteKind second, y.toUInt16⟩] ∧
        j.operands = i.operands) ∧
    (∀ (m m' : Memory) (version x : UInt8) (a k : Nat) (tail : List UInt8),
      k < 16 → (Operation.ofOne version k).IsTail tail → m.Shows a (largeForm k x ++ tail) →
      m'.Shows (a + 1) (smallForm k x ++ tail) →
      ∃ i j, m.instruction version a = .ok i ∧ m'.instruction version (a + 1) = .ok j ∧ i.Agrees j ∧
        i.operands = [⟨.large, x.toUInt16⟩] ∧ j.operands = [⟨.small, x.toUInt16⟩]) ∧
    ∀ i j : Instruction, i.Agrees j → ∀ s : Machine η, execute i s = execute j s := by
  refine ⟨?_, ?_, fun i j h s => congrFun (execute_congr h) s⟩
  · intro m m' version x y a k first second tail hk htail hm hm'
    obtain ⟨hform, hrest⟩ := Memory.shows_append.1 hm
    obtain ⟨hform', hrest'⟩ := Memory.shows_append.1 hm'
    have hstarts := Fetch.starts_variableForm version hk hform
    have hstarts' := Fetch.starts_longForm version hk hform'
    obtain ⟨i, j, hi, hj, h, hos, hos'⟩ := Fetch.instructions_of_starts htail (ofTwo_plain k).1 hstarts hstarts'
      hrest hrest' (List.forall₂_same.2 fun _ _ => ⟨rfl, .rfl⟩)
    exact ⟨i, j, hi, hj, h, hos, hos'.trans hos.symm⟩
  · intro m m' version x a k tail hk htail hm hm'
    obtain ⟨hform, hrest⟩ := Memory.shows_append.1 hm
    obtain ⟨hform', hrest'⟩ := Memory.shows_append.1 hm'
    have hstarts := Fetch.starts_largeForm version hk hform
    have hstarts' := Fetch.starts_smallForm version hk hform'
    have hagree : List.Forall₂ Operand.Agrees [⟨.large, x.toUInt16⟩] [⟨.small, x.toUInt16⟩] :=
      .cons ⟨rfl, ⟨nofun, nofun⟩⟩ .nil
    exact Fetch.instructions_of_starts htail (ofOne_plain version k) hstarts hstarts' hrest hrest' hagree

def wideCode : Memory :=
  -- The sum of the top of the stack and 5, and the first child of object 1, in as many bytes as may
  -- be.
  ⟨Array.replicate 64 0 ++ #[0xD4, 0x9F, 0, 5, 16, 0x82, 0, 1, 16, 0x45], by simp, by simp⟩

def narrowCode : Memory :=
  -- The same in fewer bytes, each up to the same end.
  ⟨Array.replicate 65 0 ++ #[0x54, 0, 5, 16, 0, 0x92, 1, 16, 0x45], by simp, by simp⟩

theorem encodings_alike_narrowed :
    (∃ i j, wideCode.instruction 5 64 = .ok i ∧ narrowCode.instruction 5 65 = .ok j ∧
      i.operands = [⟨.variable, 0⟩, ⟨.small, 5⟩] ∧ ∀ s : Machine Playback, execute i s = execute j s) ∧
    ∃ i j, wideCode.instruction 5 69 = .ok i ∧ narrowCode.instruction 5 70 = .ok j ∧
      i.operands = [⟨.large, 1⟩] ∧ ∀ s : Machine Playback, execute i s = execute j s := by
  obtain ⟨two, one, alike⟩ := @encodings_alike Playback _
  constructor
  · obtain ⟨i, j, hi, hj, h, hos, -⟩ := two wideCode narrowCode 5 0 5 64 0x14 true false [16] (by decide)
      ⟨[16], [], rfl, rfl, rfl⟩ ⟨rfl, rfl, rfl, rfl, rfl, trivial⟩ ⟨rfl, rfl, rfl, rfl, trivial⟩
    exact ⟨i, j, hi, hj, hos, alike i j h⟩
  · obtain ⟨i, j, hi, hj, h, hos, -⟩ := one wideCode narrowCode 5 1 69 2 [16, 0x45] (by decide)
      ⟨[16], [0x45], rfl, rfl, rfl⟩ ⟨rfl, rfl, rfl, rfl, rfl, trivial⟩ ⟨rfl, rfl, rfl, rfl, trivial⟩
    exact ⟨i, j, hi, hj, hos, alike i j h⟩

end Machine

end ZMachine
