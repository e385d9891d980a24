import ZMachine.Proofs.Machine.Effect

namespace ZMachine.Machine

variable {η : Type}

section Common

variable {i : Instruction} {operands : List UInt16}

theorem executeTable_concludes :
    Concludes i operands (executeTable i operands : Action (Machine η) Outcome) := by
  unfold executeTable
  dsimp only
  split
  · exact .bind (onCore_quiet Core.readIndirect_quiet) fun _ => .storeResult
  · exact .bind (onCore_quiet Core.writeIndirect_quiet) fun _ => .proceeded
  · exact .bind readMemory_quiet fun _ => .storeResult
  · exact .bind readMemory_quiet fun _ => .storeResult
  · exact .bind (onMemory_quiet Memory.setWord_sameSize) fun _ => .proceeded
  · exact .bind (onMemory_quiet Memory.setByte_sameSize) fun _ => .proceeded
  · exact .bind (onMemory_quiet copyTable_sameSize) fun _ => .proceeded
  · exact .bind readMemory_quiet fun _ => .bind storeTo_quiet fun _ => .branchOn
  · exact .throw _

theorem changeObjects_concludes {f : ObjectTable → Action Memory Unit}
    (h : ∀ t, Leads Memory.SameSize (f t)) :
    Concludes i operands (changeObjects f : Action (Machine η) Outcome) :=
  .bind (onMemory_quiet fun m => h m.objects m) fun _ => .proceeded

variable [Host η]

theorem executeMath_concludes :
    Concludes i operands (executeMath i operands : Action (Machine η) Outcome) := by
  unfold executeMath
  dsimp only
  split
  iterate 3 exact .storeResult
  iterate 2
    split
    · exact .bind (.throw _) fun _ => .storeResult
    · exact .storeResult
  iterate 3 exact .storeResult
  iterate 5 exact .branchOn
  iterate 2 exact .bind adjust_quiet fun _ => .proceeded
  iterate 2 exact .bind adjust_quiet fun _ => .branchOn
  iterate 2 exact .storeResult
  · exact .bind random_quiet fun _ => .storeResult
  · exact .throw _

theorem executeObject_concludes :
    Concludes i operands (executeObject i operands : Action (Machine η) Outcome) := by
  unfold executeObject
  dsimp only
  split
  · exact .passOver
  split
  iterate 2 exact .bind readMemory_quiet fun _ => .bind storeTo_quiet fun _ => .branchOn
  iterate 2 exact .bind readMemory_quiet fun _ => .storeResult
  · exact changeObjects_concludes fun _ => ObjectTable.remove_sameSize
  · exact .bind readMemory_quiet fun _ => .bind output_quiet fun _ => .proceeded
  iterate 2 exact .bind readMemory_quiet fun _ => .branchOn
  iterate 2 exact changeObjects_concludes fun _ => ObjectTable.putAttribute_sameSize
  · exact .ite .proceeded (changeObjects_concludes fun _ => ObjectTable.insert_sameSize)
  iterate 3 exact .bind readMemory_quiet fun _ => .storeResult
  · exact changeObjects_concludes fun _ => ObjectTable.setProperty_sameSize
  · exact .throw _

theorem executeDisplay_concludes :
    Concludes i operands (executeDisplay i operands : Action (Machine η) Outcome) := by
  have shown {c : Screen.Command} : Concludes i operands (command c : Action (Machine η) Outcome) :=
    .bind ask_quiet fun _ => .proceeded
  have printed {text : List Char} : Concludes i operands (print text : Action (Machine η) Outcome) :=
    .bind output_quiet fun _ => .proceeded
  unfold executeDisplay
  dsimp only
  split
  · exact .bind printText_quiet fun _ => .proceeded
  · next h =>
    exact .bind printText_quiet fun _ => .bind output_quiet fun _ => .returnValue (.printRet h)
  · exact printed
  · refine .bind .get fun s => ?_
    split
    · exact .bind showStatus_quiet fun _ => .proceeded
    · exact .proceeded
  · exact .bind printStringAt_quiet fun _ => .proceeded
  · exact .bind .get fun _ => .bind printStringAt_quiet fun _ => .proceeded
  · split
    · exact printed
    · exact .proceeded
  · exact printed
  · exact .bind printRows_quiet fun _ => .proceeded
  · exact printed
  · exact .storeResult
  iterate 3 exact shown
  · exact .ite shown .proceeded
  · exact shown
  · exact .bind ask_quiet fun _ => .bind (onMemory_quiet Memory.setWord_sameSize) fun _ =>
      .bind (onMemory_quiet Memory.setWord_sameSize) fun _ => .proceeded
  iterate 2 exact shown
  · exact .bind selectStream_quiet fun _ => .proceeded
  iterate 3 exact .proceeded
  · exact shown
  · exact .storeResult
  · exact .throw _

theorem executeInput_concludes :
    Concludes i operands (executeInput i operands : Action (Machine η) Outcome) := by
  have read (version : UInt8) (buffer parse : Nat) : Concludes i operands (do
      let line ← ask Host.readLine
      onMemory (storeLine version buffer line)
      if parse ≠ 0 then onMemory (tokenise version buffer parse false)
      storeResult i Zscii.newline : Action (Machine η) Outcome) := by
    refine .bind ask_quiet fun _ => .bind (onMemory_quiet storeLine_sameSize) fun _ => ?_
    split
    · exact .bind (onMemory_quiet tokenise_sameSize) fun _ => .storeResult
    · exact .storeResult
  refine .bind .get fun s => ?_
  dsimp only
  split
  iterate 2
    split
    · exact .bind showStatus_quiet fun _ => read _ _ _
    · exact read _ _ _
  · exact .bind ask_quiet fun _ => .storeResult
  · exact .bind (onMemory_quiet tokenise_sameSize) fun _ => .proceeded
  · exact .bind (onMemory_quiet encodeAt_sameSize) fun _ => .proceeded
  · exact .throw _

end Common

inductive Effect [Host η] (i : Instruction) (operands : List UInt16) (s : Machine η) :
    EStateM.Result Fault (Machine η) Outcome → Prop
  | ends {r : EStateM.Result Fault (Machine η) Outcome} (h : Ends i operands s r) :
    Effect i operands s r
  | calls {frame : Frame} {store : Option UInt8} (result : i.callResult? = some store)
    (target : operands.getD 0 0 ≠ 0)
    (routine : routineFrame s.version (s.core.memory.unpackRoutine (operands.getD 0 0))
      operands.tail store s.core.memory = .ok frame)
    (room : s.core.frames.length < callDepthLimit) :
    Effect i operands s (.ok .called (s.withFrames (frame :: s.core.frames)))
  | unwinds {above rest : CallStack} {f g : Frame} (throws : i.mnemonic = .throwFrame)
    (frames : s.core.frames = above ++ f :: g :: rest)
    (depth : (operands.getD 1 0).toNat = rest.length + 2) :
    Effect i operands s (deliver f.storeTo (operands.getD 0 0) (s.withFrames (g :: rest)))
  | strands {above : CallStack} {f : Frame} (throws : i.mnemonic = .throwFrame)
    (frames : s.core.frames = above ++ [f]) :
    Effect i operands s (.error (.stackUnderflow .returnFromMain) (s.withFrames [f]))
  | saves (save : i.mnemonic = .saveUndo) :
    Effect i operands s
      (storeResult i 1 { s with undo := (s.snapshot i.store :: s.undo).take undoLimit })
  | restarts (again : i.mnemonic = .restart) :
    Effect i operands s ((do restart; return .proceeded : Action (Machine η) Outcome) s)
  | reverts {newest : Snapshot} {older : List Snapshot} (back : i.mnemonic = .restoreUndo)
    (undo : s.undo = newest :: older) :
    Effect i operands s
      ((do revert newest; return .proceeded : Action (Machine η) Outcome) { s with undo := older })

def Performs [Host η] (i : Instruction) (operands : List UInt16) (act : Action (Machine η) Outcome) :
    Prop :=
  ∀ s, Effect i operands s (act s)

section Special

variable [Host η] {i : Instruction} {operands : List UInt16}

theorem Concludes.performs {act : Action (Machine η) Outcome} (h : Concludes i operands act) :
    Performs i operands act :=
  fun s => .ends (h s)

theorem call_performs {store : Option UInt8} (result : i.callResult? = some store) :
    Performs i operands (call (operands.getD 0 0) operands.tail store : Action (Machine η) Outcome) := by
  unfold call
  split
  · exact (Concludes.bind storeTo_quiet fun _ => .proceeded).performs
  · next target =>
    intro s
    rw [bind_get]
    let f := fun m : Memory =>
      routineFrame s.version (m.unpackRoutine (operands.getD 0 0)) operands.tail store m
    cases hr : f s.core.memory with
    | error e =>
      rw [bind_error _ (readMemory_error (f := f) hr)]
      exact .ends (.stays (refl s) (by rintro _ _ ⟨⟩))
    | ok frame =>
      rw [bind_ok _ (readMemory_ok (f := f) hr)]
      by_cases full : callDepthLimit ≤ s.core.frames.length
      · have hp : CallStack.push frame s.core.frames =
            .error (.stackOverflow callDepthLimit) s.core.frames := if_pos full
        rw [bind_error _ (onCore_error (Core.onFrames_error hp))]
        exact .ends (.stays (refl s) (by rintro _ _ ⟨⟩))
      · have hp : CallStack.push frame s.core.frames = .ok () (frame :: s.core.frames) :=
          if_neg full
        rw [bind_ok _ (onCore_ok (Core.onFrames_ok hp))]
        exact .calls result target hr (by omega)

theorem throw_performs (throws : i.mnemonic = .throwFrame) :
    Performs i operands (do
      onCore (Core.onFrames (CallStack.unwindTo (operands.getD 1 0).toNat))
      returnValue (operands.getD 0 0) : Action (Machine η) Outcome) := by
  intro s
  obtain ⟨e, ht⟩ | ⟨above, f, hs, ht⟩ | ⟨above, f, g, rest, hs, hd, ht⟩ :=
    throw_cases (operands.getD 0 0) (operands.getD 1 0) s
  · rw [ht]
    exact .ends (.stays (refl s) (by rintro _ _ ⟨⟩))
  · rw [ht]
    exact .strands throws hs
  · rw [ht]
    exact .unwinds throws hs hd

theorem executeRoutine_performs :
    Performs i operands (executeRoutine i operands : Action (Machine η) Outcome) := by
  unfold executeRoutine
  dsimp only
  split
  iterate 8
    next h => exact call_performs (by rw [Instruction.callResult?, h])
  · next h => exact (Concludes.returnValue (.ret h)).performs
  · next h => exact (Concludes.returnValue (.rtrue h)).performs
  · next h => exact (Concludes.returnValue (.rfalse h)).performs
  · next h =>
    exact (Concludes.bind (onCore_quiet Core.pop_quiet) fun _ =>
      .returnValue (.retPopped h)).performs
  · exact (Concludes.bind .get fun _ => .storeResult).performs
  · next h => exact throw_performs h
  · exact (Concludes.bind (onCore_quiet (Core.onFrames_quiet (.reading _))) fun _ =>
      .branchOn).performs
  · exact (Concludes.bind (onCore_quiet Core.push_quiet) fun _ => .proceeded).performs
  · split
    · split
      · exact (Concludes.bind (onMemory_quiet pullUserStack_sameSize) fun _ => .storeResult).performs
      · exact (Concludes.bind (onCore_quiet Core.pop_quiet) fun _ => .storeResult).performs
    · exact (Concludes.bind (onCore_quiet Core.pop_quiet) fun _ =>
        .bind (onCore_quiet Core.writeIndirect_quiet) fun _ => .proceeded).performs
  · exact (Concludes.bind (onCore_quiet Core.pop_quiet) fun _ => .proceeded).performs
  · split
    · exact (Concludes.bind (onMemory_quiet dropUserStack_sameSize) fun _ => .proceeded).performs
    · exact (Concludes.bind (onCore_quiet popTimes_quiet) fun _ => .proceeded).performs
  · exact (Concludes.bind (onMemory_quiet pushUserStack_sameSize) fun _ => .branchOn).performs
  · exact (Concludes.throw _).performs

theorem executeControl_performs :
    Performs i operands (executeControl i operands : Action (Machine η) Outcome) := by
  unfold executeControl
  split
  · next h =>
    split
    · exact (Concludes.throw _).performs
    · exact (Concludes.jumpBy (.jump h rfl)).performs
  · exact Concludes.proceeded.performs
  · exact (Concludes.bind ask_quiet fun _ => .quit).performs
  · next h => exact fun s => .restarts h
  · exact (Concludes.bind .get fun _ => .branchOn).performs
  · exact Concludes.branchOn.performs
  iterate 2 exact Concludes.passOver.performs
  · next h => exact fun s => .saves h
  · next h =>
    intro s
    rw [bind_get]
    cases hu : s.undo with
    | nil => exact .ends (Concludes.storeResult s)
    | cons newest older => exact .reverts h hu
  · exact (Concludes.throw _).performs

theorem executeFamily_performs (family : Family) :
    Performs i operands (executeFamily family i operands : Action (Machine η) Outcome) := by
  cases family with
  | math => exact executeMath_concludes.performs
  | memory => exact executeTable_concludes.performs
  | stack => exact executeRoutine_performs
  | object => exact executeObject_concludes.performs
  | display => exact executeDisplay_concludes.performs
  | input => exact executeInput_concludes.performs
  | control => exact executeControl_performs

theorem execute_cases (i : Instruction) (s : Machine η) :
    (∃ e t, resolveOperands i.operands s = .error e t ∧ execute i s = .error e t) ∨
      ∃ operands t, resolveOperands i.operands s = .ok operands t ∧ Effect i operands t (execute i s) := by
  unfold execute
  cases hr : resolveOperands i.operands s with
  | error e t => exact .inl ⟨e, t, rfl, bind_error _ hr⟩
  | ok operands t =>
    refine .inr ⟨operands, t, rfl, ?_⟩
    rw [bind_ok _ hr, bind_get]
    split
    · exact .ends (Concludes.passOver t)
    · cases hf : i.mnemonic.family? with
      | none => exact .ends (Concludes.passOver t)
      | some family => exact executeFamily_performs family t

theorem effect_of_execute {s t : Machine η} {o : Outcome} (h : execute i s = .ok o t) :
    ∃ operands s', resolveOperands i.operands s = .ok operands s' ∧ Effect i operands s' (.ok o t) := by
  have hcases := execute_cases i s
  rw [h] at hcases
  obtain ⟨_, _, _, ⟨⟩⟩ | hok := hcases
  exact hok

theorem execute_of_family {s t : Machine η} {family : Family}
    (hr : resolveOperands i.operands s = .ok operands t)
    (old : i.descriptor.minVersion ≤ t.version) (hf : i.mnemonic.family? = some family) :
    execute i s = executeFamily family i operands t := by
  unfold execute
  rw [bind_ok _ hr, bind_get, if_neg (UInt8.not_lt.mpr old), hf]

theorem execute_of_new {s t : Machine η} (hr : resolveOperands i.operands s = .ok operands t)
    (new : ¬ i.descriptor.minVersion ≤ t.version) : execute i s = passOver i t := by
  unfold execute
  rw [bind_ok _ hr, bind_get, if_pos (UInt8.not_le.mp new)]

-- A relation that holds of quiet work and of a change of the frames or the snapshots holds of all
-- that an instruction does, but for the restart.
variable {R : Machine η → Machine η → Prop} [IsPreorder (Machine η) R] {s : Machine η}
  {r : EStateM.Result Fault (Machine η) Outcome}

omit [Host η] in
theorem deliver_leads (quiet : ∀ s t : Machine η, Quiet s t → R s t) (store : Option UInt8)
    (v : UInt16) : Leads R (deliver store v : Action (Machine η) Outcome) :=
  .bind (fun s => quiet _ _ (storeTo_quiet s)) fun _ => .pure _

omit [Host η] in
theorem Ends.leads (h : Ends i operands s r) (quiet : ∀ s t : Machine η, Quiet s t → R s t)
    (frames : ∀ (s : Machine η) stack, R s (s.withFrames stack)) : R s (ending r) := by
  cases h with
  | stays q _ => exact quiet _ _ q
  | @jumps t _ _ _ q _ _ => exact IsTrans.trans s t _ (quiet _ _ q) (frames t _)
  | @returns t _ _ _ _ q _ _ =>
    apply IsTrans.trans s t _ (quiet _ _ q)
    exact IsTrans.trans t _ _ (frames t _) (deliver_leads quiet _ _ _)

theorem Effect.leads (h : Effect i operands s r) (quiet : ∀ s t : Machine η, Quiet s t → R s t)
    (frames : ∀ (s : Machine η) stack, R s (s.withFrames stack))
    (snapshots : ∀ (s : Machine η) undo, R s { s with undo })
    (again : Leads R (restart : Action (Machine η) Unit)) : R s (ending r) := by
  cases h with
  | ends h => exact h.leads quiet frames
  | calls => exact frames s _
  | unwinds => exact IsTrans.trans s _ _ (frames s _) (deliver_leads quiet _ _ _)
  | strands => exact frames s _
  | saves =>
    apply IsTrans.trans s _ _ (snapshots s _)
    exact quiet _ _ (Leads.bind storeTo_quiet (fun _ => .pure _) _)
  | restarts => exact Leads.bind again (fun _ => .pure _) s
  | @reverts newest older =>
    have reverts : Leads R (revert newest : Action (Machine η) Unit) := by
      refine .bind (fun s => quiet _ _ (onMemory_quiet Memory.copyFrom_sameSize s)) fun _ => ?_
      exact .bind (fun s => frames s _) fun _ s => quiet _ _ (storeTo_quiet s)
    apply IsTrans.trans s _ _ (snapshots s older)
    exact Leads.bind reverts (fun _ => .pure _) _

theorem execute_leads (quiet : ∀ s t : Machine η, Quiet s t → R s t)
    (frames : ∀ (s : Machine η) stack, R s (s.withFrames stack))
    (snapshots : ∀ (s : Machine η) undo, R s { s with undo })
    (again : Leads R (restart : Action (Machine η) Unit)) : Leads R (execute i) := by
  intro s
  obtain ⟨e, t, hr, he⟩ | ⟨operands, t, hr, he⟩ := execute_cases i s
  · rw [he]
    exact quiet s t (resolveOperands_quiet.of_error hr)
  · apply IsTrans.trans s t _ (quiet s t (resolveOperands_quiet.of_ok hr))
    exact he.leads quiet frames snapshots again

end Special

end ZMachine.Machine
