import Mathlib.Algebra.Group.Nat.Defs
import ZMachine.Proofs.Machine.Quiet
import ZMachine.Proofs.Memory.Access

namespace ZMachine.Machine

abbrev Utterance := Memory → Except Fault (List Char)

def said (text : List Char) : Utterance := fun _ => .ok text

def rowScript (width step a rows : Nat) : List Utterance :=
  ((List.range' a rows step).map fun b m => tableRow m b width).intersperse (said ['\n'])

/-- The texts of an operation that prints. -/
def script? (i : Instruction) (operands : List UInt16) : Option (List Utterance) :=
  let a := operands.getD 0 0
  match i.mnemonic with
  | .print => some (i.text.toList.map fun b m => m.text b)
  | .printRet => some ((i.text.toList.map fun b m => m.text b) ++ [said ['\n']])
  | .newLine => some [said ['\n']]
  | .printAddr => some [fun m => m.text a.toNat]
  | .printPaddr => some [fun m => m.text (m.unpackString a)]
  | .printChar => some ((Zscii.toChar? a).toList.map fun c => said [c])
  | .printNum => some [said (signed a.toInt16.toInt).toList]
  | .printTable =>
    let width := (operands.getD 1 0).toNat
    some (rowScript width (width + (operands.getD 3 0).toNat) a.toNat (operands.getD 2 1).toNat)
  | .printUnicode => some [said [(unicodeChar? a).getD '?']]
  | .printObj => some (if a = 0 then [] else [objectName a])
  | _ => none

variable {η : Type}

def leave (i : Instruction) (operands : List UInt16) : Action (Machine η) Outcome :=
  match i.mnemonic with
  | .printRet => returnValue 1
  | .printObj => if operands.getD 0 0 = 0 then passOver i else return .proceeded
  | _ => return .proceeded

variable [Host η]

def speak : List Utterance → Action (Machine η) Unit
  | [] => pure ()
  | u :: us => do
    output (← readMemory u)
    speak us

def spoken : List Utterance → Machine η → List Char
  | [], _ => []
  | u :: us, s =>
    match u s.core.memory with
    | .error _ => []
    | .ok text => text ++
      match output text s with
      | .ok _ t => spoken us t
      | .error _ _ => []

section Texts

variable {s : Machine η} {u : Utterance} {us : List Utterance} {text : List Char}

theorem speak_ok (h : u s.core.memory = .ok text) :
    speak (u :: us) s = (do output text; speak us) s := by
  rw [speak, bind_ok _ (readMemory_ok h)]

theorem speak_error {e : Fault} (h : u s.core.memory = .error e) : speak (u :: us) s = .error e s := by
  rw [speak, bind_error _ (readMemory_error h)]

theorem speak_congr {v : Utterance} (h : u s.core.memory = v s.core.memory) :
    speak (u :: us) s = speak (v :: us) s := by
  cases hu : u s.core.memory with
  | ok text => rw [speak_ok hu, speak_ok (h.symm.trans hu)]
  | error e => rw [speak_error hu, speak_error (h.symm.trans hu)]

theorem speak_said (text : List Char) :
    (speak [said text] : Action (Machine η) Unit) = output text := by
  funext s
  rw [speak_ok (u := said text) rfl]
  exact congrFun (bind_pure_unit (x := output text)) s

theorem speak_append (us vs : List Utterance) :
    (speak (us ++ vs) : Action (Machine η) Unit) = (do speak us; speak vs) := by
  induction us with
  | nil => simp only [List.nil_append, speak, pure_bind]
  | cons u us ih => simp only [List.cons_append, speak, ih, bind_assoc]

theorem printStringAt_eq (a : Nat) :
    (printStringAt a : Action (Machine η) Unit) = speak [fun m => m.text a] := by
  simp only [printStringAt, speak, bind_pure_unit]

theorem printText_eq (text : Option Nat) :
    (text.forM printStringAt : Action (Machine η) Unit) =
      speak (text.toList.map fun b m => m.text b) := by
  cases text with
  | none => rfl
  | some a => exact printStringAt_eq a

end Texts

theorem tableRow_inside {m : Memory} {a width : Nat} {row : List Char} (hw : 0 < width)
    (h : tableRow m a width = .ok row) : a < m.bytes.size := by
  obtain ⟨width, rfl⟩ := Nat.exists_eq_succ_of_ne_zero (Nat.ne_of_gt hw)
  obtain ⟨b, hb, -⟩ := ok_of_bind_except h
  exact Memory.byte_inside hb

theorem rowScript_succ (width step a rows : Nat) :
    rowScript width step a (rows + 1) = (fun m => tableRow m a width) ::
      if rows = 0 then [] else said ['\n'] :: rowScript width step (a + step) rows := by
  cases rows with
  | zero => rfl
  | succ rows =>
    simp only [rowScript, List.range'_succ, List.map_cons, List.intersperse_cons_cons,
      Nat.succ_ne_zero, ↓reduceIte]

theorem printRows_eq {width step a rows : Nat} (hs : step < 2 ^ 17)
    (ha : width = 0 ∧ a + rows * step < UInt32.size ∨ 0 < width ∧ a < 2 ^ 20) :
    (printRows width step a rows : Action (Machine η) Unit) = speak (rowScript width step a rows) := by
  -- Rows that are read lie inside the memory, and rows of no width are few enough, so that the
  -- address of the next row does not overflow.
  induction rows generalizing a with
  | zero => rfl
  | succ rows ih =>
    have product : (rows + 1) * step = rows * step + step := Nat.succ_mul ..
    funext s
    rw [rowScript_succ, printRows]
    cases hr : tableRow s.core.memory a width with
    | error e => rw [bind_error _ (readMemory_error hr), speak_error hr]
    | ok row =>
      have near : 0 < width → a < 512 * 1024 := fun hw =>
        Nat.lt_of_lt_of_le (tableRow_inside hw hr) s.core.memory.size_le
      have hsize : UInt32.size = 2 ^ 32 := rfl
      have next : nextRow a step = .ok (a + step) := if_pos (by omega)
      rw [bind_ok _ (readMemory_ok hr), speak_ok hr]
      refine congrFun (congrArg (output row >>= ·) ?_) s
      funext _ t
      rw [bind_ok _ (readMemory_ok (f := fun _ => nextRow a step) next)]
      by_cases last : rows = 0
      · subst last
        rfl
      · rw [if_pos last, if_neg last, ih (by omega), speak_ok (u := said ['\n']) rfl]
        rfl

theorem printTable_eq (a width skip rows : UInt16) :
    (printRows width.toNat (width.toNat + skip.toNat) a.toNat rows.toNat : Action (Machine η) Unit) =
      speak (rowScript width.toNat (width.toNat + skip.toNat) a.toNat rows.toNat) := by
  have ha := a.toNat_lt
  have hw := width.toNat_lt
  have hr := rows.toNat_lt
  have hs := skip.toNat_lt
  have far : rows.toNat * skip.toNat ≤ 65535 * 65535 := Nat.mul_le_mul (by omega) (by omega)
  have hsize : UInt32.size = 2 ^ 32 := rfl
  apply printRows_eq (by omega)
  by_cases thin : width.toNat = 0
  · rw [thin, Nat.zero_add]
    omega
  · omega

theorem executeDisplay_of_script {i : Instruction} {operands : List UInt16} {script : List Utterance}
    (hs : script? i operands = some script) (hf : i.mnemonic.family? = some .display) :
    (executeDisplay i operands : Action (Machine η) Outcome) = (do speak script; leave i operands) := by
  unfold script? at hs
  unfold executeDisplay leave
  dsimp only at hs ⊢
  generalize i.mnemonic = mnemonic at hs hf ⊢
  cases mnemonic with
  | print =>
    cases hs
    simp only [printText_eq]
  | printRet =>
    cases hs
    simp only [printText_eq, speak_append, speak_said, bind_assoc, outputNewline]
  | newLine | printNum | printUnicode =>
    cases hs
    simp only [speak_said, print]
  | printAddr =>
    cases hs
    simp only [printStringAt_eq]
  | printPaddr =>
    cases hs
    funext s
    simp only [printStringAt_eq, bind_get]
    exact bind_eq_of_eq _ (speak_congr rfl)
  | printChar =>
    cases hs
    cases Zscii.toChar? (operands.getD 0 0) with
    | none => rfl
    | some c => simp only [Option.toList_some, List.map_cons, List.map_nil, speak_said, print]
  | printTable =>
    cases hs
    simp only [printTable_eq]
  | printObj => cases hf
  | _ => cases hs

theorem executeObject_of_script {i : Instruction} {operands : List UInt16} {script : List Utterance}
    (hs : script? i operands = some script) (hf : i.mnemonic.family? = some .object) :
    (executeObject i operands : Action (Machine η) Outcome) = (do speak script; leave i operands) := by
  unfold script? at hs
  unfold executeObject leave
  dsimp only at hs ⊢
  generalize i.mnemonic = mnemonic at hs hf ⊢
  cases mnemonic with
  | printObj =>
    cases hs
    by_cases nobody : operands.getD 0 0 = 0
    · simp only [nobody, speak, ne_eq, reduceCtorEq, not_false_eq_true, and_self, ↓reduceIte, pure_bind]
    · simp only [nobody, speak, false_and, ↓reduceIte, bind_assoc, pure_bind]
  | print | printRet | newLine | printAddr | printPaddr | printChar | printNum | printTable
  | printUnicode => cases hf
  | _ => cases hs

theorem family_of_script {i : Instruction} {operands : List UInt16} {script : List Utterance}
    (hs : script? i operands = some script) :
    i.mnemonic.family? = some .display ∨ i.mnemonic.family? = some .object := by
  unfold script? at hs
  dsimp only at hs
  generalize i.mnemonic = mnemonic at hs ⊢
  cases mnemonic with
  | printObj => exact .inr rfl
  | print | printRet | newLine | printAddr | printPaddr | printChar | printNum | printTable
  | printUnicode => exact .inl rfl
  | _ => cases hs

theorem executeFamily_of_script {i : Instruction} {operands : List UInt16} {script : List Utterance}
    {family : Family} (hs : script? i operands = some script) (hf : i.mnemonic.family? = some family) :
    (executeFamily family i operands : Action (Machine η) Outcome) =
      (do speak script; leave i operands) := by
  obtain hd | ho := family_of_script hs
  · cases hf.symm.trans hd
    exact executeDisplay_of_script hs hd
  · cases hf.symm.trans ho
    exact executeObject_of_script hs ho

end ZMachine.Machine
