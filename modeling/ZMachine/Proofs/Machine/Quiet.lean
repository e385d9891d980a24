import ZMachine.Proofs.Machine.QuietCore

namespace ZMachine.Machine

variable {η α : Type}

structure Quiet (s t : Machine η) : Prop where
  core : s.core.Quiet t.core
  version : t.version = s.version
  tables : s.streams.tables.length ≤ tableLimit → t.streams.tables.length ≤ tableLimit
  undo : t.undo = s.undo
  count : t.count = s.count
  quit : t.quit = s.quit

instance : IsPreorder (Machine η) Quiet where
  refl _ := ⟨refl _, rfl, id, rfl, rfl, rfl⟩
  trans _ _ _ h h' := ⟨IsTrans.trans _ _ _ h.core h'.core, h'.version.trans h.version,
    h'.tables ∘ h.tables, h'.undo.trans h.undo, h'.count.trans h.count, h'.quit.trans h.quit⟩

theorem Quiet.trans {s t u : Machine η} (h : Quiet s t) (h' : Quiet t u) : Quiet s u :=
  IsTrans.trans _ _ _ h h'

theorem onCore_ok {act : Action Core α} {s : Machine η} {c : Core} {a : α}
    (h : act s.core = .ok a c) : onCore act s = .ok a { s with core := c } := by
  simp only [onCore, h]

theorem onCore_error {act : Action Core α} {s : Machine η} {c : Core} {e : Fault}
    (h : act s.core = .error e c) : onCore act s = .error e { s with core := c } := by
  simp only [onCore, h]

theorem onCore_quiet {act : Action Core α} (h : Leads Core.Quiet act) :
    Leads Quiet (onCore act : Action (Machine η) α) := by
  intro s
  cases hs : act s.core with
  | ok a c =>
    rw [onCore_ok hs]
    exact ⟨h.of_ok hs, rfl, id, rfl, rfl, rfl⟩
  | error e c =>
    rw [onCore_error hs]
    exact ⟨h.of_error hs, rfl, id, rfl, rfl, rfl⟩

theorem onMemory_quiet {act : Action Memory α} (h : Leads Memory.SameSize act) :
    Leads Quiet (onMemory act : Action (Machine η) α) :=
  onCore_quiet (Core.onMemory_quiet h)

theorem readMemory_quiet {f : Memory → Except Fault α} :
    Leads Quiet (readMemory f : Action (Machine η) α) :=
  onCore_quiet Core.readMemory_quiet

theorem readMemory_ok {f : Memory → Except Fault α} {s : Machine η} {a : α}
    (h : f s.core.memory = .ok a) : readMemory f s = .ok a s := by
  rw [readMemory, Core.readMemory, onCore_ok (Core.onMemory_ok (reading_ok h))]

theorem readMemory_error {f : Memory → Except Fault α} {s : Machine η} {e : Fault}
    (h : f s.core.memory = .error e) : readMemory f s = .error e s := by
  have hr : Action.reading f s.core.memory = .error e s.core.memory := by rw [Action.reading, h]
  rw [readMemory, Core.readMemory, onCore_error (Core.onMemory_error hr)]

theorem ask_quiet {act : HostAction η α} : Leads Quiet (ask act) := by
  intro s
  unfold ask
  dsimp only
  cases act s.host <;> exact ⟨refl _, rfl, id, rfl, rfl, rfl⟩

theorem tell_quiet {act : η → α × η} : Leads Quiet (tell act) :=
  fun _ => ⟨refl _, rfl, id, rfl, rfl, rfl⟩

theorem storeTo_quiet {store : Option UInt8} {v : UInt16} :
    Leads Quiet (storeTo store v : Action (Machine η) Unit) := by
  cases store with
  | none => exact .pure _
  | some n => exact onCore_quiet Core.writeVariable_quiet

theorem adjust_quiet {n : UInt8} {by' : Int16} :
    Leads Quiet (adjust n by' : Action (Machine η) Int16) :=
  .bind (onCore_quiet Core.readIndirect_quiet) fun _ =>
    .bind (onCore_quiet Core.writeIndirect_quiet) fun _ => .pure _

theorem popTimes_quiet {n : Nat} : Leads Core.Quiet (popTimes n) := by
  induction n with
  | zero => exact .pure _
  | succ n ih => exact .bind Core.pop_quiet fun _ => ih

theorem resolveOperand_quiet {o : Operand} :
    Leads Quiet (resolveOperand o : Action (Machine η) UInt16) := by
  unfold resolveOperand
  split
  · exact onCore_quiet Core.readVariable_quiet
  · exact .pure _

theorem resolveOperands_quiet {os : List Operand} :
    Leads Quiet (resolveOperands os : Action (Machine η) (List UInt16)) := by
  induction os with
  | nil => exact .pure _
  | cons o rest ih => exact .bind resolveOperand_quiet fun _ => .bind ih fun _ => .pure _

theorem openTable_quiet {table : Nat} : Leads Quiet (openTable table : Action (Machine η) Unit) := by
  intro s
  unfold openTable
  rw [bind_get]
  split
  · exact refl s
  · next room =>
    dsimp only
    cases hs : Core.onMemory (Memory.setWord table 0) s.core with
    | ok a c =>
      have hc := (Core.onMemory_quiet Memory.setWord_sameSize).of_ok hs
      rw [onMemory, bind_ok _ (onCore_ok hs)]
      refine ⟨hc, rfl, fun _ => ?_, rfl, rfl, rfl⟩
      change (table :: s.streams.tables).length ≤ tableLimit
      rw [List.length_cons]
      omega
    | error e c =>
      have hc := (Core.onMemory_quiet Memory.setWord_sameSize).of_error hs
      rw [onMemory, bind_error _ (onCore_error hs)]
      exact ⟨hc, rfl, id, rfl, rfl, rfl⟩

theorem closeTable_quiet : Leads Quiet (closeTable : Action (Machine η) Unit) := by
  refine .modify fun s => ⟨refl _, rfl, fun h => ?_, rfl, rfl, rfl⟩
  dsimp only
  rw [List.length_tail]
  omega

theorem selectScreen_quiet {on : Bool} : Leads Quiet (selectScreen on : Action (Machine η) Unit) :=
  .modify fun _ => ⟨refl _, rfl, id, rfl, rfl, rfl⟩

theorem selectTranscript_quiet {on : Bool} :
    Leads Quiet (selectTranscript on : Action (Machine η) Unit) :=
  .bind (.modify fun _ => ⟨refl _, rfl, id, rfl, rfl, rfl⟩) fun _ =>
    onMemory_quiet (.modify fun _ => Memory.size_setHeaderWord ..)

theorem selectStream_quiet {stream : Int16} {table : UInt16} :
    Leads Quiet (selectStream stream table : Action (Machine η) Unit) :=
  .ite selectScreen_quiet (.ite selectScreen_quiet (.ite selectTranscript_quiet
    (.ite selectTranscript_quiet (.ite openTable_quiet (.ite closeTable_quiet (.pure _))))))

variable [Host η]

theorem random_quiet {range : Int16} : Leads Quiet (random range : Action (Machine η) UInt16) :=
  .ite tell_quiet (.ite tell_quiet tell_quiet)

theorem output_quiet {text : List Char} : Leads Quiet (output text : Action (Machine η) Unit) := by
  refine .bind .get fun s => ?_
  dsimp only
  split
  · exact onMemory_quiet capture_sameSize
  · exact .ite ask_quiet (.pure _)

theorem printStringAt_quiet {a : Nat} : Leads Quiet (printStringAt a : Action (Machine η) Unit) :=
  .bind readMemory_quiet fun _ => output_quiet

theorem printText_quiet {text : Option Nat} :
    Leads Quiet (text.forM printStringAt : Action (Machine η) Unit) := by
  cases text with
  | none => exact .pure _
  | some a => exact printStringAt_quiet

theorem printRows_quiet {width step a rows : Nat} :
    Leads Quiet (printRows width step a rows : Action (Machine η) Unit) := by
  induction rows generalizing a with
  | zero => exact .pure _
  | succ rows ih =>
    refine .bind readMemory_quiet fun _ => .bind output_quiet fun _ => .bind readMemory_quiet fun _ => ?_
    split
    · exact .bind output_quiet fun _ => ih
    · exact ih

theorem showStatus_quiet : Leads Quiet (showStatus : Action (Machine η) Unit) := by
  refine .bind readMemory_quiet fun location => ?_
  have rest (name : List Char) : Leads Quiet (do
      let first ← readMemory (Core.readGlobal · 17)
      let second ← readMemory (Core.readGlobal · 18)
      let isTime := (← get).core.memory.flags1.toNat.testBit 1
      perform (.showStatus (String.ofList name) (statusRight isTime first second)) :
      Action (Machine η) Unit) :=
    .bind readMemory_quiet fun _ => .bind readMemory_quiet fun _ => .bind .get fun _ => ask_quiet
  split
  · exact rest _
  · exact .bind readMemory_quiet rest

end ZMachine.Machine
