import ZMachine.Proofs.Action
import ZMachine.Run

namespace ZMachine

section Actions

variable {ε σ τ α β : Type}

inductive Matches (R : σ → τ → Prop) : EStateM.Result ε σ α → EStateM.Result ε τ α → Prop
  | ok {a : α} {s : σ} {t : τ} (h : R s t) : Matches R (.ok a s) (.ok a t)
  | error {e : ε} {s : σ} {t : τ} (h : R s t) : Matches R (.error e s) (.error e t)

def Paired (R : σ → τ → Prop) (x : EStateM ε σ α) (y : EStateM ε τ α) : Prop :=
  ∀ s t, R s t → Matches R (x s) (y t)

namespace Paired

variable {R : σ → τ → Prop}

theorem pure (a : α) : Paired R (Pure.pure a : EStateM ε σ α) (Pure.pure a) := fun _ _ h => .ok h

theorem throw (e : ε) : Paired R (throw e : EStateM ε σ α) (throw e) := fun _ _ h => .error h

theorem modify {f : σ → σ} {g : τ → τ} (h : ∀ s t, R s t → R (f s) (g t)) :
    Paired R (modify f : EStateM ε σ PUnit) (modify g) := fun s t hst => .ok (h s t hst)

theorem bind {x : EStateM ε σ α} {y : EStateM ε τ α} {f : α → EStateM ε σ β} {g : α → EStateM ε τ β}
    (hx : Paired R x y) (hf : ∀ a, Paired R (f a) (g a)) : Paired R (x >>= f) (y >>= g) := by
  intro s t hst
  have hr := hx s t hst
  generalize hxs : x s = r, hyt : y t = q at hr
  cases hr with
  | ok h =>
    rw [bind_ok f hxs, bind_ok g hyt]
    exact hf _ _ _ h
  | error h =>
    rw [bind_error f hxs, bind_error g hyt]
    exact .error h

theorem bind_get {f : σ → EStateM ε σ β} {g : τ → EStateM ε τ β}
    (h : ∀ s t, R s t → Paired R (f s) (g t)) :
    Paired R (MonadState.get >>= f) (MonadState.get >>= g) := fun s t hst => h s t hst s t hst

theorem ite {c : Prop} [Decidable c] {x x' : EStateM ε σ α} {y y' : EStateM ε τ α} (h : Paired R x y)
    (h' : Paired R x' y') : Paired R (if c then x else x') (if c then y else y') := by
  split
  · exact h
  · exact h'

end Paired

end Actions

variable {η θ α β : Type} [Host η] [Host θ] {R : η → θ → Prop}

/-- Whatever is asked of two hosts, they answer alike and stay related. -/
structure Host.AnswerAlike (R : η → θ → Prop) : Prop where
  capabilities : ∀ h k, R h k → Host.capabilities h = Host.capabilities k
  perform : ∀ c, Paired R (Host.perform c) (Host.perform c)
  cursor : Paired R Host.cursor Host.cursor
  readLine : Paired R Host.readLine Host.readLine
  readKey : Paired R Host.readKey Host.readKey
  roll : ∀ range h k, R h k →
    (Host.roll range h).1 = (Host.roll range k).1 ∧ R (Host.roll range h).2 (Host.roll range k).2
  seed : ∀ n h k, R h k → R (Host.seed n h) (Host.seed n k)
  reseed : ∀ h k, R h k → R (Host.reseed h) (Host.reseed k)

namespace Machine

inductive Beside (R : η → θ → Prop) : Machine η → Machine θ → Prop
  | mk {core : Core} {version : UInt8} {streams : Streams} {undo : List Snapshot} {count : Nat} {quit : Bool}
    {host : η} {host' : θ} (h : R host host') :
    Beside R ⟨core, version, streams, undo, count, quit, host⟩
      ⟨core, version, streams, undo, count, quit, host'⟩

section Parts

omit [Host η] [Host θ]

theorem onCore_paired (act : Action Core α) :
    Paired (Beside R) (onCore act : Action (Machine η) α) (onCore act) := by
  rintro _ _ ⟨h⟩
  unfold onCore
  dsimp only
  split
  · exact .ok ⟨h⟩
  · exact .error ⟨h⟩

theorem onMemory_paired (act : Action Memory α) :
    Paired (Beside R) (onMemory act : Action (Machine η) α) (onMemory act) := onCore_paired _

theorem readMemory_paired (f : Memory → Except Fault α) :
    Paired (Beside R) (readMemory f : Action (Machine η) α) (readMemory f) := onCore_paired _

theorem ask_paired {x : HostAction η α} {y : HostAction θ α} (hx : Paired R x y) :
    Paired (Beside R) (ask x) (ask y) := by
  rintro _ _ ⟨h⟩
  have hr := hx _ _ h
  unfold ask
  dsimp only
  generalize x _ = r, y _ = q at hr
  cases hr with
  | ok h => exact .ok ⟨h⟩
  | error h => exact .error ⟨h⟩

theorem tell_paired {x : η → α × η} {y : θ → α × θ}
    (hx : ∀ h k, R h k → (x h).1 = (y k).1 ∧ R (x h).2 (y k).2) :
    Paired (Beside R) (tell x) (tell y) := by
  rintro _ _ ⟨h⟩
  obtain ⟨same, kept⟩ := hx _ _ h
  unfold tell
  dsimp only
  rw [same]
  exact .ok ⟨kept⟩

theorem storeTo_paired {store : Option UInt8} {v : UInt16} :
    Paired (Beside R) (storeTo store v : Action (Machine η) Unit) (storeTo store v) := by
  cases store with
  | none => exact .pure _
  | some n => exact onCore_paired _

theorem storeResult_paired {i : Instruction} {v : UInt16} :
    Paired (Beside R) (storeResult i v : Action (Machine η) Outcome) (storeResult i v) :=
  .bind storeTo_paired fun _ => .pure _

theorem returnValue_paired {v : UInt16} :
    Paired (Beside R) (returnValue v : Action (Machine η) Outcome) (returnValue v) :=
  .bind (onCore_paired _) fun _ => .bind storeTo_paired fun _ => .pure _

theorem jumpBy_paired {i : Instruction} {offset : Int} :
    Paired (Beside R) (jumpBy i offset : Action (Machine η) Outcome) (jumpBy i offset) :=
  .bind (onCore_paired _) fun _ => .pure _

theorem branchOn_paired {i : Instruction} {condition : Bool} :
    Paired (Beside R) (branchOn i condition : Action (Machine η) Outcome) (branchOn i condition) := by
  unfold branchOn
  cases i.branch with
  | none => exact .pure _
  | some b => exact .ite (.pure _) (.ite returnValue_paired (.ite returnValue_paired jumpBy_paired))

theorem passOver_paired {i : Instruction} :
    Paired (Beside R) (passOver i : Action (Machine η) Outcome) (passOver i) :=
  .bind storeTo_paired fun _ => branchOn_paired

theorem call_paired {packed : UInt16} {args : List UInt16} {store : Option UInt8} :
    Paired (Beside R) (call packed args store : Action (Machine η) Outcome) (call packed args store) := by
  refine .ite (.bind storeTo_paired fun _ => .pure _) (.bind_get ?_)
  rintro _ _ ⟨h⟩
  exact .bind (readMemory_paired _) fun _ => .bind (onCore_paired _) fun _ => .pure _

theorem openTable_paired {table : Nat} :
    Paired (Beside R) (openTable table : Action (Machine η) Unit) (openTable table) := by
  refine .bind_get ?_
  rintro _ _ ⟨h⟩
  refine .ite (.throw _) (.bind (onMemory_paired _) fun _ => .modify ?_)
  rintro _ _ ⟨h⟩
  exact ⟨h⟩

theorem selectStream_paired {stream : Int16} {table : UInt16} :
    Paired (Beside R) (selectStream stream table : Action (Machine η) Unit) (selectStream stream table) := by
  have screen (on : Bool) : Paired (Beside R) (selectScreen on : Action (Machine η) Unit) (selectScreen on) :=
    .modify fun _ _ ⟨h⟩ => ⟨h⟩
  have transcript (on : Bool) :
      Paired (Beside R) (selectTranscript on : Action (Machine η) Unit) (selectTranscript on) :=
    .bind (.modify fun _ _ ⟨h⟩ => ⟨h⟩) fun _ => onMemory_paired _
  have close : Paired (Beside R) (closeTable : Action (Machine η) Unit) closeTable :=
    .modify fun _ _ ⟨h⟩ => ⟨h⟩
  exact .ite (screen _) (.ite (screen _) (.ite (transcript _) (.ite (transcript _)
    (.ite openTable_paired (.ite close (.pure _))))))

theorem adjust_paired {n : UInt8} {by' : Int16} :
    Paired (Beside R) (adjust n by' : Action (Machine η) Int16) (adjust n by') :=
  .bind (onCore_paired _) fun _ => .bind (onCore_paired _) fun _ => .pure _

theorem changeObjects_paired {f : ObjectTable → Action Memory Unit} :
    Paired (Beside R) (changeObjects f : Action (Machine η) Outcome) (changeObjects f) :=
  .bind (onMemory_paired _) fun _ => .pure _

theorem keep_paired {snapshot : Snapshot} :
    Paired (Beside R) (keep snapshot : Action (Machine η) Unit) (keep snapshot) :=
  .modify fun _ _ ⟨h⟩ => ⟨h⟩

theorem revert_paired {snapshot : Snapshot} :
    Paired (Beside R) (revert snapshot : Action (Machine η) Unit) (revert snapshot) :=
  .bind (onMemory_paired _) fun _ => .bind (onCore_paired _) fun _ => storeTo_paired

theorem resolveOperands_paired {os : List Operand} :
    Paired (Beside R) (resolveOperands os : Action (Machine η) (List UInt16)) (resolveOperands os) := by
  have one (o : Operand) : Paired (Beside R) (resolveOperand o : Action (Machine η) UInt16) (resolveOperand o) := by
    unfold resolveOperand
    split
    · exact onCore_paired _
    · exact .pure _
  induction os with
  | nil => exact .pure _
  | cons o rest ih => exact .bind (one o) fun _ => .bind ih fun _ => .pure _

end Parts

section Asking

variable (alike : Host.AnswerAlike R)

include alike

theorem perform_paired (c : Screen.Command) :
    Paired (Beside R) (perform c : Action (Machine η) Unit) (perform c) :=
  ask_paired (alike.perform c)

theorem output_paired (text : List Char) :
    Paired (Beside R) (output text : Action (Machine η) Unit) (output text) := by
  refine .bind_get ?_
  rintro _ _ ⟨h⟩
  dsimp only
  split
  · exact onMemory_paired _
  · exact .ite (perform_paired alike _) (.pure _)

theorem printStringAt_paired (a : Nat) :
    Paired (Beside R) (printStringAt a : Action (Machine η) Unit) (printStringAt a) :=
  .bind (readMemory_paired _) fun _ => output_paired alike _

theorem printText_paired (text : Option Nat) :
    Paired (Beside R) (text.forM printStringAt : Action (Machine η) Unit) (text.forM printStringAt) := by
  cases text with
  | none => exact .pure _
  | some a => exact printStringAt_paired alike a

theorem printRows_paired (width step a rows : Nat) :
    Paired (Beside R) (printRows width step a rows : Action (Machine η) Unit) (printRows width step a rows) := by
  induction rows generalizing a with
  | zero => exact .pure _
  | succ rows ih =>
    refine .bind (readMemory_paired _) fun _ => .bind (output_paired alike _) fun _ =>
      .bind (readMemory_paired _) fun _ => .ite ?_ (ih _)
    exact .bind (output_paired alike _) fun _ => ih _

theorem showStatus_paired : Paired (Beside R) (showStatus : Action (Machine η) Unit) showStatus := by
  have named (name : List Char) : Paired (Beside R) (do
      let first ← readMemory (Core.readGlobal · 17)
      let second ← readMemory (Core.readGlobal · 18)
      let isTime := (← get).core.memory.flags1.toNat.testBit 1
      perform (.showStatus (String.ofList name) (statusRight isTime first second)) :
      Action (Machine η) Unit) (do
      let first ← readMemory (Core.readGlobal · 17)
      let second ← readMemory (Core.readGlobal · 18)
      let isTime := (← get).core.memory.flags1.toNat.testBit 1
      perform (.showStatus (String.ofList name) (statusRight isTime first second))) := by
    refine .bind (readMemory_paired _) fun _ => .bind (readMemory_paired _) fun _ => .bind_get ?_
    rintro _ _ ⟨h⟩
    exact perform_paired alike _
  exact .bind (readMemory_paired _) fun _ => .ite (named _) (.bind (readMemory_paired _) named)

theorem random_paired (range : Int16) :
    Paired (Beside R) (random range : Action (Machine η) UInt16) (random range) := by
  refine .ite (tell_paired (alike.roll _)) (.ite (tell_paired ?_) (tell_paired ?_))
  · exact fun h k hr => ⟨rfl, alike.seed _ h k hr⟩
  · exact fun h k hr => ⟨rfl, alike.reseed h k hr⟩

theorem restart_paired : Paired (Beside R) (restart : Action (Machine η) Unit) restart := by
  refine .bind (onCore_paired _) fun _ => .bind (.modify fun _ _ ⟨h⟩ => ⟨h⟩) fun _ => ?_
  rintro _ _ ⟨h⟩
  unfold publishHeader
  dsimp only
  rw [alike.capabilities _ _ h]
  exact .ok ⟨h⟩

variable {i : Instruction} {operands : List UInt16}

theorem executeMath_paired :
    Paired (Beside R) (executeMath i operands : Action (Machine η) Outcome) (executeMath i operands) := by
  unfold executeMath
  cases i.mnemonic with
  | div | mod => exact .ite (.throw _) storeResult_paired
  | add | sub | mul | or | and | not | logShift | artShift => exact storeResult_paired
  | test | je | jl | jg | jz => exact branchOn_paired
  | inc | dec => exact .bind adjust_paired fun _ => .pure _
  | incChk | decChk => exact .bind adjust_paired fun _ => branchOn_paired
  | random => exact .bind (random_paired alike _) fun _ => storeResult_paired
  | _ => exact .throw _

omit alike [Host η] [Host θ] in
theorem executeTable_paired :
    Paired (Beside R) (executeTable i operands : Action (Machine η) Outcome) (executeTable i operands) := by
  unfold executeTable
  cases i.mnemonic with
  | load => exact .bind (onCore_paired _) fun _ => storeResult_paired
  | store => exact .bind (onCore_paired _) fun _ => .pure _
  | loadw | loadb => exact .bind (readMemory_paired _) fun _ => storeResult_paired
  | storew | storeb | copyTable => exact .bind (onMemory_paired _) fun _ => .pure _
  | scanTable => exact .bind (readMemory_paired _) fun _ => .bind storeTo_paired fun _ => branchOn_paired
  | _ => exact .throw _

omit alike [Host η] [Host θ] in
theorem executeRoutine_paired :
    Paired (Beside R) (executeRoutine i operands : Action (Machine η) Outcome) (executeRoutine i operands) := by
  unfold executeRoutine
  cases i.mnemonic with
  | call1s | call2s | callVs | callVs2 | call1n | call2n | callVn | callVn2 => exact call_paired
  | ret | rtrue | rfalse => exact returnValue_paired
  | retPopped | throwFrame => exact .bind (onCore_paired _) fun _ => returnValue_paired
  | catchFrame =>
    refine .bind_get ?_
    rintro _ _ ⟨h⟩
    exact storeResult_paired
  | checkArgCount => exact .bind (onCore_paired _) fun _ => branchOn_paired
  | push | pop => exact .bind (onCore_paired _) fun _ => .pure _
  | pull =>
    refine .ite ?_ (.bind (onCore_paired _) fun _ => .bind (onCore_paired _) fun _ => .pure _)
    cases operands with
    | nil => exact .bind (onCore_paired _) fun _ => storeResult_paired
    | cons stack rest => exact .bind (onMemory_paired _) fun _ => storeResult_paired
  | popStack =>
    dsimp only
    split
    · exact .bind (onMemory_paired _) fun _ => .pure _
    · exact .bind (onCore_paired _) fun _ => .pure _
  | pushStack => exact .bind (onMemory_paired _) fun _ => branchOn_paired
  | _ => exact .throw _

theorem executeObject_paired :
    Paired (Beside R) (executeObject i operands : Action (Machine η) Outcome) (executeObject i operands) := by
  unfold executeObject
  refine .ite passOver_paired ?_
  cases i.mnemonic with
  | getSibling | getChild =>
    exact .bind (readMemory_paired _) fun _ => .bind storeTo_paired fun _ => branchOn_paired
  | getParent | getPropLen | getProp | getPropAddr | getNextProp =>
    exact .bind (readMemory_paired _) fun _ => storeResult_paired
  | jin | testAttr => exact .bind (readMemory_paired _) fun _ => branchOn_paired
  | removeObj | setAttr | clearAttr | putProp => exact changeObjects_paired
  | insertObj => exact .ite (.pure _) changeObjects_paired
  | printObj => exact .bind (readMemory_paired _) fun _ => .bind (output_paired alike _) fun _ => .pure _
  | _ => exact .throw _

theorem executeDisplay_paired :
    Paired (Beside R) (executeDisplay i operands : Action (Machine η) Outcome) (executeDisplay i operands) := by
  have command (c : Screen.Command) :
      Paired (Beside R) (command c : Action (Machine η) Outcome) (command c) :=
    .bind (perform_paired alike c) fun _ => .pure _
  have print (text : List Char) : Paired (Beside R) (print text : Action (Machine η) Outcome) (print text) :=
    .bind (output_paired alike text) fun _ => .pure _
  unfold executeDisplay
  cases i.mnemonic with
  | print => exact .bind (printText_paired alike _) fun _ => .pure _
  | printRet =>
    exact .bind (printText_paired alike _) fun _ => .bind (output_paired alike _) fun _ => returnValue_paired
  | newLine | printNum | printUnicode => exact print _
  | showStatus =>
    refine .bind_get ?_
    rintro _ _ ⟨h⟩
    exact .ite (.bind (showStatus_paired alike) fun _ => .pure _) (.pure _)
  | printAddr => exact .bind (printStringAt_paired alike _) fun _ => .pure _
  | printPaddr =>
    refine .bind_get ?_
    rintro _ _ ⟨h⟩
    exact .bind (printStringAt_paired alike _) fun _ => .pure _
  | printChar =>
    dsimp only
    split
    · exact print _
    · exact .pure _
  | printTable => exact .bind (printRows_paired alike _ _ _ _) fun _ => .pure _
  | checkUnicode | setFont => exact storeResult_paired
  | splitWindow | setWindow | eraseWindow | setCursor | setTextStyle | bufferMode | setColour => exact command _
  | eraseLine => exact .ite (command _) (.pure _)
  | getCursor =>
    exact .bind (ask_paired alike.cursor) fun _ => .bind (onMemory_paired _) fun _ =>
      .bind (onMemory_paired _) fun _ => .pure _
  | outputStream => exact .bind selectStream_paired fun _ => .pure _
  | inputStream | soundEffect | setTrueColour => exact .pure _
  | _ => exact .throw _

theorem executeInput_paired :
    Paired (Beside R) (executeInput i operands : Action (Machine η) Outcome) (executeInput i operands) := by
  have read (version : UInt8) (buffer parse : Nat) : Paired (Beside R) (do
      let line ← ask Host.readLine
      onMemory (storeLine version buffer line)
      if parse ≠ 0 then onMemory (tokenise version buffer parse false)
      storeResult i Zscii.newline : Action (Machine η) Outcome) (do
      let line ← ask Host.readLine
      onMemory (storeLine version buffer line)
      if parse ≠ 0 then onMemory (tokenise version buffer parse false)
      storeResult i Zscii.newline) := by
    refine .bind (ask_paired alike.readLine) fun _ => .bind (onMemory_paired _) fun _ => .ite ?_ storeResult_paired
    exact .bind (onMemory_paired _) fun _ => storeResult_paired
  refine .bind_get ?_
  rintro _ _ ⟨h⟩
  cases i.mnemonic with
  | sread | aread => exact .ite (.bind (showStatus_paired alike) fun _ => read _ _ _) (read _ _ _)
  | readChar => exact .bind (ask_paired alike.readKey) fun _ => storeResult_paired
  | tokenise | encodeText => exact .bind (onMemory_paired _) fun _ => .pure _
  | _ => exact .throw _

theorem executeControl_paired :
    Paired (Beside R) (executeControl i operands : Action (Machine η) Outcome) (executeControl i operands) := by
  unfold executeControl
  cases i.mnemonic with
  | jump =>
    cases operands with
    | nil => exact .throw _
    | cons offset rest => exact jumpBy_paired
  | nop => exact .pure _
  | quit => exact .bind (perform_paired alike _) fun _ => .pure _
  | restart => exact .bind (restart_paired alike) fun _ => .pure _
  | verify =>
    refine .bind_get ?_
    rintro _ _ ⟨h⟩
    exact branchOn_paired
  | piracy => exact branchOn_paired
  | save | restore => exact .bind storeTo_paired fun _ => branchOn_paired
  | saveUndo =>
    refine .bind_get ?_
    rintro _ _ ⟨h⟩
    exact .bind keep_paired fun _ => storeResult_paired
  | restoreUndo =>
    refine .bind_get ?_
    rintro _ _ ⟨h⟩
    dsimp only
    split
    · exact storeResult_paired
    · exact .bind (.modify fun _ _ ⟨h⟩ => ⟨h⟩) fun _ => .bind revert_paired fun _ => .pure _
  | _ => exact .throw _

theorem execute_paired : Paired (Beside R) (execute i : Action (Machine η) Outcome) (execute i) := by
  refine .bind resolveOperands_paired fun operands => .bind_get ?_
  rintro _ _ ⟨h⟩
  refine .ite passOver_paired ?_
  cases i.mnemonic.family? with
  | none => exact passOver_paired
  | some family =>
    cases family with
    | math => exact executeMath_paired alike
    | memory => exact executeTable_paired
    | stack => exact executeRoutine_paired
    | object => exact executeObject_paired alike
    | display => exact executeDisplay_paired alike
    | input => exact executeInput_paired alike
    | control => exact executeControl_paired alike

omit alike [Host η] [Host θ] in
theorem Beside.fetched {s : Machine η} {t : Machine θ} (h : Beside R s t) (next : Nat) :
    Beside R (s.fetched next) (t.fetched next) := by
  obtain ⟨h⟩ := h
  exact ⟨h⟩

theorem step_paired : Paired (Beside R) (step : EStateM Failure (Machine η) Outcome) step := by
  intro s t hst
  have executed (i : Instruction) := execute_paired alike (i := i) _ _ (hst.fetched i.next)
  obtain ⟨h⟩ := hst
  unfold step
  dsimp only
  split
  · exact .error ⟨h⟩
  split
  · exact .error ⟨h⟩
  next i _ =>
    have hr := executed i
    generalize (execute i : Action (Machine η) Outcome) _ = r, (execute i : Action (Machine θ) Outcome) _ = q at hr
    cases hr with
    | @ok o _ _ h =>
      obtain ⟨h⟩ := h
      cases o <;> exact .ok ⟨h⟩
    | error h =>
      obtain ⟨h⟩ := h
      exact .error ⟨h⟩

theorem flush_paired : Paired (Beside R) (flush : EStateM Failure (Machine η) Unit) flush := by
  intro s t hst
  have hr := perform_paired alike .flush s t hst
  unfold flush
  generalize perform .flush s = r, perform .flush t = q at hr
  cases hr with
  | ok h => exact .ok h
  | error h => exact .error h

theorem runFor_paired (n : Nat) : Paired (Beside R) (runFor n : EStateM Failure (Machine η) Unit) (runFor n) := by
  induction n with
  | zero =>
    refine .bind_get ?_
    rintro _ _ ⟨h⟩
    exact .ite (flush_paired alike) (.pure _)
  | succ n ih =>
    refine .bind_get ?_
    rintro _ _ ⟨h⟩
    exact .ite (flush_paired alike) (.bind (step_paired alike) fun _ => ih)

theorem run_paired (limit : Option Nat) :
    Paired (Beside R) (run limit : EStateM Failure (Machine η) Unit) (run limit) := runFor_paired alike _

end Asking

end Machine

end ZMachine
