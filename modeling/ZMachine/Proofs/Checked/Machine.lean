import ZMachine.Proofs.Checked.Core
import ZMachine.Proofs.Checked.Instruction
import ZMachine.Proofs.Checked.Object
import ZMachine.Proofs.Checked.Tables

namespace ZMachine

structure Snapshot.Fits (p : Snapshot) : Prop where
  frames : p.frames.Fits
  memory : p.memory.size < 2 ^ 32

/-- After at most `n` instructions, everything that the machine keeps for itself fits its word. -/
structure Machine.Fits {η : Type} (n : Nat) (s : Machine η) : Prop where
  core : s.core.Fits
  undo : ∀ p ∈ s.undo, p.Fits
  tables : ∀ a ∈ s.streams.tables, a < 2 ^ 16
  count : s.count ≤ n

namespace Checked

variable {η α β : Type} {n : Nat}

def onCore (act : Work Core α) : Work (Machine η) α :=
  fun ⟨core, version, streams, undo, count, quit, host⟩ =>
    match act core with
    | .ok a core => .ok a ⟨core, version, streams, undo, count, quit, host⟩
    | .error e core => .error e ⟨core, version, streams, undo, count, quit, host⟩

def onMemory (act : Work Memory α) : Work (Machine η) α := onCore (inMemory act)

def readMemory (f : Memory → Calc α) : Work (Machine η) α := onMemory (read f)

section Parts

theorem Tracks.onCore {x : Work Core α} {y : Action Core α} (h : Tracks Core.Fits x y) :
    Tracks (Machine.Fits n) (onCore x : Work (Machine η) α) (Machine.onCore y) := by
  rintro ⟨core, version, streams, undo, count, quit, host⟩ hs
  obtain ⟨hr, hc⟩ := h core hs.core
  unfold Checked.onCore Machine.onCore
  dsimp only
  generalize x core = r, y core = q at hr hc
  cases hr with
  | ok a c => exact ⟨.ok _ _, hc, hs.undo, hs.tables, hs.count⟩
  | error c he => exact ⟨.error _ he, hc, hs.undo, hs.tables, hs.count⟩

theorem Tracks.onMemory {x : Work Memory α} {y : Action Memory α}
    (h : ∀ k, Tracks (Memory.Sized k) x y) :
    Tracks (Machine.Fits n) (onMemory x : Work (Machine η) α) (Machine.onMemory y) :=
  .onCore (.inMemory h)

theorem Tracks.readMemory {f : Memory → Calc α} {g : Memory → Except Fault α}
    (h : ∀ m, Agrees (f m) (g m)) :
    Tracks (Machine.Fits n) (readMemory f : Work (Machine η) α) (Machine.readMemory g) :=
  .onMemory fun _ => .read fun m _ => h m

theorem Tracks.bind_memory {f : Memory → Calc α} {g : Memory → Except Fault α}
    {x : α → Work (Machine η) β} {y : α → Action (Machine η) β} (h : ∀ m, Agrees (f m) (g m))
    (hx : ∀ a m, g m = .ok a → Tracks (Machine.Fits n) (x a) (y a)) :
    Tracks (Machine.Fits n) (Checked.readMemory f >>= x) (Machine.readMemory g >>= y) := by
  refine (Tracks.readMemory h).bind_ok fun a s t _ hs ht => ?_
  cases hg : g s.core.memory with
  | error e =>
    rw [Machine.readMemory_error hg] at hs
    cases hs
  | ok b =>
    rw [Machine.readMemory_ok hg] at hs
    cases hs
    exact hx _ _ hg s ht

theorem Tracks.bind_get {σ : Type} {P : σ → Prop} {f : σ → Work σ α} {g : σ → Action σ α}
    (h : ∀ s, P s → Tracks P (f s) (g s)) :
    Tracks P (MonadState.get >>= f) (MonadState.get >>= g) := fun s hs => h s hs s hs

theorem Tracks.ask {act : HostAction η α} :
    Tracks (Machine.Fits n) (Checked.plainly (Machine.ask act)) (Machine.ask act) := by
  apply Tracks.plainly
  · intro s e t h
    unfold Machine.ask at h
    dsimp only at h
    split at h
    · cases h
    · cases h
      trivial
  · intro s hs
    unfold Machine.ask
    dsimp only
    cases act s.host <;> exact ⟨hs.core, hs.undo, hs.tables, hs.count⟩

theorem Tracks.tell {act : η → α × η} :
    Tracks (Machine.Fits n) (Checked.plainly (Machine.tell act)) (Machine.tell act) :=
  .plainly (fun _ _ _ h => by cases h) fun _ hs => ⟨hs.core, hs.undo, hs.tables, hs.count⟩

end Parts

def storeTo (store : Option UInt8) (v : UInt16) : Work (Machine η) Unit :=
  match store with
  | none => pure ()
  | some n => onCore (writeVariable n v)

def storeResult (i : Instruction) (v : UInt16) : Work (Machine η) Outcome := do
  storeTo i.store v
  return .proceeded

def returnValue (v : UInt16) : Work (Machine η) Outcome := do
  let frame ← onCore (inFrames (plainly CallStack.pop))
  storeTo frame.storeTo v
  return .returned v

def destination (next : Nat) (offset : Int) : Calc Nat := do
  let a ← fitSigned 63 (next + offset)
  let a ← fitSigned 63 (a - 2)
  return (a % UInt32.size).toNat

def jumpBy (i : Instruction) (offset : Int) : Work (Machine η) Outcome := do
  let a ← destination i.next offset
  onCore (inFrames (plainly (CallStack.onTop (modify ({ · with pc := a })))))
  return .branched

def branchOn (i : Instruction) (condition : Bool) : Work (Machine η) Outcome :=
  match i.branch with
  | none => return .proceeded
  | some b =>
    if condition ≠ b.onTrue then return .proceeded
    else if b.offset = 0 then returnValue 0
    else if b.offset = 1 then returnValue 1
    else jumpBy i b.offset

def passOver (i : Instruction) : Work (Machine η) Outcome := do
  storeTo i.store 0
  branchOn i false

def call (packed : UInt16) (args : List UInt16) (store : Option UInt8) :
    Work (Machine η) Outcome := do
  if packed = 0 then
    storeTo store 0
    return .proceeded
  let version := (← get).version
  let frame ← readMemory fun m => do
    routineFrame version (← unpack m m.routinesOffset packed) args store m
  onCore (inFrames (pushFrame frame))
  return .called

section Flow

variable {i : Instruction} {v : UInt16}

theorem storeTo_tracks {store : Option UInt8} :
    Tracks (Machine.Fits n) (storeTo store v : Work (Machine η) Unit) (Machine.storeTo store v) := by
  cases store with
  | none => exact .pure _
  | some k => exact .onCore writeVariable_tracks

theorem storeResult_tracks :
    Tracks (Machine.Fits n) (storeResult i v : Work (Machine η) Outcome)
      (Machine.storeResult i v) :=
  .bind storeTo_tracks fun _ => .pure _

theorem popFrame_tracks : Tracks CallStack.Fits (plainly CallStack.pop) CallStack.pop := by
  apply Tracks.plainly
  · intro s e t h
    unfold CallStack.pop at h
    split at h
    · cases h
    · cases h
      trivial
  · intro s hs
    unfold CallStack.pop
    split
    · exact (List.forall_mem_cons.mp hs).2
    · exact hs

theorem returnValue_tracks :
    Tracks (Machine.Fits n) (returnValue v : Work (Machine η) Outcome) (Machine.returnValue v) :=
  .bind (.onCore (.inFrames popFrame_tracks)) fun _ => .bind storeTo_tracks fun _ => .pure _

theorem destination_eq {next : Nat} {offset : Int} (hn : next < 2 ^ 32) (ho : -2 ^ 15 ≤ offset)
    (ho' : offset < 2 ^ 15) : destination next offset = .ok (Machine.target next offset) := by
  unfold destination
  rw [fitSigned_of_bounds (by omega) (by omega), ok_bind,
    fitSigned_of_bounds (by omega) (by omega)]
  rfl

theorem target_lt (next : Nat) (offset : Int) : Machine.target next offset < 2 ^ 32 := by
  unfold Machine.target UInt32.size
  omega

theorem setPc_tracks {a : Nat} (ha : a < 2 ^ 32) :
    Tracks Core.Fits (inFrames (plainly (CallStack.onTop (modify ({ · with pc := a })))))
      (Core.setPc a) := by
  refine .inFrames (.plainly (onTop_mild fun _ _ _ h => by cases h) fun s hs => ?_)
  cases s with
  | nil => exact hs
  | cons f rest => exact List.forall_mem_cons.mpr ⟨ha, (List.forall_mem_cons.mp hs).2⟩

theorem jumpBy_tracks {offset : Int} (hi : i.Fits) (ho : -2 ^ 15 ≤ offset) (ho' : offset < 2 ^ 15) :
    Tracks (Machine.Fits n) (jumpBy i offset : Work (Machine η) Outcome)
      (Machine.jumpBy i offset) := by
  unfold jumpBy
  rw [destination_eq hi.next ho ho', lift_ok_bind]
  exact .bind (.onCore (setPc_tracks (target_lt _ _))) fun _ => .pure _

theorem branchOn_tracks {condition : Bool} (hi : i.Fits) :
    Tracks (Machine.Fits n) (branchOn i condition : Work (Machine η) Outcome)
      (Machine.branchOn i condition) := by
  unfold branchOn Machine.branchOn
  cases hb : i.branch with
  | none => exact .pure _
  | some b =>
    obtain ⟨low, high⟩ := hi.branch b hb
    refine .ite (fun _ => .pure _) fun _ => .ite (fun _ => returnValue_tracks) fun _ => ?_
    exact .ite (fun _ => returnValue_tracks) fun _ => jumpBy_tracks hi low high

theorem passOver_tracks (hi : i.Fits) :
    Tracks (Machine.Fits n) (passOver i : Work (Machine η) Outcome) (Machine.passOver i) :=
  .bind storeTo_tracks fun _ => branchOn_tracks hi

theorem call_tracks {packed : UInt16} {args : List UInt16} {store : Option UInt8} :
    Tracks (Machine.Fits n) (call packed args store : Work (Machine η) Outcome)
      (Machine.call packed args store) := by
  refine .ite (fun _ => .bind storeTo_tracks fun _ => .pure _) fun _ => .bind .get fun s => ?_
  refine .bind_memory (fun m => ?_) fun f m hf => ?_
  · rw [unpack_eq, ok_bind]
    exact routineFrame_agrees (unpack_lt ..)
  · have pc := routineFrame_lt (unpack_lt ..) hf
    exact .bind (.onCore (.inFrames (pushFrame_tracks pc))) fun _ => .pure _

end Flow

def openTable (table : Nat) : Work (Machine η) Unit := do
  if Machine.tableLimit ≤ (← get).streams.tables.length then
    throw (.fault (.stackOverflow Machine.tableLimit))
  onMemory (setWord table 0)
  modify fun s => { s with streams := { s.streams with tables := table :: s.streams.tables } }

def selectStream (stream : Int16) (table : UInt16) : Work (Machine η) Unit :=
  if stream = 1 then plainly (Machine.selectScreen true)
  else if stream = -1 then plainly (Machine.selectScreen false)
  else if stream = 2 then plainly (Machine.selectTranscript true)
  else if stream = -2 then plainly (Machine.selectTranscript false)
  else if stream = 3 then openTable table.toNat
  else if stream = -3 then plainly Machine.closeTable
  else pure ()

section Streams

theorem openTable_tracks {table : Nat} (ht : table < 2 ^ 16) :
    Tracks (Machine.Fits n) (openTable table : Work (Machine η) Unit) (Machine.openTable table) := by
  refine .bind .get fun s => .ite (fun _ => .throw trivial) fun _ => ?_
  refine .bind (.onMemory fun _ => setWord_tracks (by omega)) fun _ => .modify fun t ht' => ?_
  exact ⟨ht'.core, ht'.undo, List.forall_mem_cons.mpr ⟨ht, ht'.tables⟩, ht'.count⟩

theorem selectScreen_tracks {on : Bool} :
    Tracks (Machine.Fits n) (plainly (Machine.selectScreen on : Action (Machine η) Unit))
      (Machine.selectScreen on) :=
  .plainly (fun _ _ _ h => by cases h) fun _ hs => ⟨hs.core, hs.undo, hs.tables, hs.count⟩

theorem selectTranscript_tracks {on : Bool} :
    Tracks (Machine.Fits n) (plainly (Machine.selectTranscript on : Action (Machine η) Unit))
      (Machine.selectTranscript on) := by
  refine .plainly (fun _ _ _ h => by cases h) fun s hs => ?_
  exact ⟨⟨hs.core.frames, (Memory.size_setHeaderWord ..).trans hs.core.size⟩, hs.undo,
    hs.tables, hs.count⟩

theorem closeTable_tracks :
    Tracks (Machine.Fits n) (plainly (Machine.closeTable : Action (Machine η) Unit))
      Machine.closeTable :=
  .plainly (fun _ _ _ h => by cases h) fun _ hs =>
    ⟨hs.core, hs.undo, fun a ha => hs.tables a (List.mem_of_mem_tail ha), hs.count⟩

theorem selectStream_tracks {stream : Int16} {table : UInt16} :
    Tracks (Machine.Fits n) (selectStream stream table : Work (Machine η) Unit)
      (Machine.selectStream stream table) := by
  refine .ite (fun _ => selectScreen_tracks) fun _ => .ite (fun _ => selectScreen_tracks) fun _ => ?_
  refine .ite (fun _ => selectTranscript_tracks) fun _ => ?_
  refine .ite (fun _ => selectTranscript_tracks) fun _ => ?_
  refine .ite (fun _ => openTable_tracks table.toNat_lt) fun _ => ?_
  exact .ite (fun _ => closeTable_tracks) fun _ => .pure _

end Streams

def readObjects (f : ObjectTable → Memory → Calc α) : Work (Machine η) α :=
  readMemory fun m => f m.objects m

def changeObjects (f : ObjectTable → Work Memory Unit) : Work (Machine η) Outcome := do
  onMemory fun m => f m.objects m
  return .proceeded

def objectName (obj : UInt16) (m : Memory) : Calc (List Char) := do
  match ← shortName? m.objects m obj with
  | none => return []
  | some a => text m a

section Objects

theorem objects_base_lt (m : Memory) : m.objects.base < 2 ^ 16 := m.objectTable.toNat_lt

theorem readObjects_tracks {f : ObjectTable → Memory → Calc α}
    {g : ObjectTable → Memory → Except Fault α}
    (h : ∀ t m, t.base < 2 ^ 16 → Agrees (f t m) (g t m)) :
    Tracks (Machine.Fits n) (readObjects f : Work (Machine η) α) (Machine.readObjects g) :=
  .readMemory fun m => h m.objects m (objects_base_lt m)

theorem changeObjects_tracks {f : ObjectTable → Work Memory Unit}
    {g : ObjectTable → Action Memory Unit}
    (h : ∀ t k, t.base < 2 ^ 16 → Tracks (Memory.Sized k) (f t) (g t)) :
    Tracks (Machine.Fits n) (changeObjects f : Work (Machine η) Outcome)
      (Machine.changeObjects g) :=
  .bind (.onMemory fun k m hm => h m.objects k (objects_base_lt m) m hm) fun _ => .pure _

theorem objectName_agrees {obj : UInt16} (m : Memory) :
    Agrees (objectName obj m) (Machine.objectName obj m) := by
  refine .bind (shortName?_agrees (objects_base_lt m)) fun name hn => ?_
  cases name with
  | none => exact .ok _
  | some a => exact text_agrees (shortName?_lt hn)

end Objects

section Output

variable [Host η]

def perform (c : Screen.Command) : Work (Machine η) Unit := plainly (Machine.perform c)

def output (text : List Char) : Work (Machine η) Unit := do
  let streams := (← get).streams
  match streams.tables with
  | table :: _ => onMemory (capture table text)
  | [] => if streams.screen then perform (.print (String.ofList text))

def outputNewline : Work (Machine η) Unit := output ['\n']

def printStringAt (a : Nat) : Work (Machine η) Unit := do output (← readMemory (text · a))

def printRows (width skip : Nat) : Nat → Nat → Work (Machine η) Unit
  | _, 0 => pure ()
  | a, rows + 1 => do
    output (← readMemory (tableRow · a width 0))
    let a ← readMemory fun _ => do add 32 a (← add 32 width skip)
    if rows ≠ 0 then outputNewline
    printRows width skip a rows

def showStatus : Work (Machine η) Unit := do
  let location ← readMemory (readGlobal · 16)
  let name ← if location = 0 then pure [] else readMemory (objectName location)
  let first ← readMemory (readGlobal · 17)
  let second ← readMemory (readGlobal · 18)
  let isTime := (← get).core.memory.flags1.toNat.testBit 1
  perform (.showStatus (String.ofList name) (Machine.statusRight isTime first second))

theorem output_tracks {text : List Char} :
    Tracks (Machine.Fits n) (output text : Work (Machine η) Unit) (Machine.output text) := by
  refine .bind_get fun s hs => ?_
  dsimp only
  cases ht : s.streams.tables with
  | nil => exact .ite (fun _ => .ask) fun _ => .pure _
  | cons table rest =>
    have small : table < 2 ^ 16 := hs.tables table (ht ▸ List.mem_cons_self)
    exact .onMemory fun _ => capture_tracks small

theorem printStringAt_tracks {a : Nat} (ha : a < 2 ^ 32) :
    Tracks (Machine.Fits n) (printStringAt a : Work (Machine η) Unit) (Machine.printStringAt a) :=
  .bind (.readMemory fun _ => text_agrees ha) fun _ => output_tracks

theorem tableRow_bound {m : Memory} {a width : Nat} {row : List Char} (hw : 0 < width)
    (h : Machine.tableRow m a width = .ok row) : a < 524288 := by
  -- Where a row that is not empty was read, the table has not left the memory.
  obtain ⟨width, rfl⟩ := Nat.exists_eq_succ_of_ne_zero (Nat.ne_of_gt hw)
  obtain ⟨b, hb, -⟩ := ok_of_bind_except h
  exact Memory.byte_bound hb

theorem nextRow_agrees {a width skip : Nat} (h : a + (width + skip) < 2 ^ 32) :
    Agrees (do add 32 a (← add 32 width skip)) (Machine.nextRow a (width + skip)) := by
  have next : Machine.nextRow a (width + skip) = .ok (a + (width + skip)) := if_pos h
  rw [add_of_lt (by omega), ok_bind, add_of_lt h, next]
  exact .ok _

theorem printRows_tracks {width skip a rows : Nat} (hw : width < 2 ^ 16) (hs : skip < 2 ^ 16)
    (ha : width = 0 ∧ a + rows * skip < 2 ^ 32 ∨ 0 < width ∧ a < 2 ^ 20) :
    Tracks (Machine.Fits n) (printRows width skip a rows : Work (Machine η) Unit)
      (Machine.printRows width (width + skip) a rows) := by
  -- Rows without width may be far behind the memory, but not behind the last address.
  induction rows generalizing a with
  | zero => exact .pure _
  | succ rows ih =>
    have product : (rows + 1) * skip = rows * skip + skip := Nat.succ_mul ..
    refine .bind_memory (fun m => tableRow_agrees (by omega)) fun row m hr => ?_
    -- rows of no width read nothing, so that only their number keeps the address small
    have near : 0 < width → a < 524288 := fun h => tableRow_bound h hr
    refine .bind output_tracks fun _ => ?_
    refine .bind_memory (fun _ => nextRow_agrees (by omega)) fun b _ hb => ?_
    have next : b = a + (width + skip) := by
      unfold Machine.nextRow at hb
      split at hb
      · exact (Except.ok.inj hb).symm
      · cases hb
    have rest := ih (a := b) (by omega)
    exact .ite (fun _ => .bind output_tracks fun _ => rest) fun _ => rest

theorem showStatus_tracks :
    Tracks (Machine.Fits n) (showStatus : Work (Machine η) Unit) Machine.showStatus := by
  have globals {k : UInt8} : Tracks (Machine.Fits n) (readMemory (readGlobal · k) : Work (Machine η) UInt16)
      (Machine.readMemory (Core.readGlobal · k)) := .readMemory fun _ => readGlobal_agrees
  refine .bind globals fun location => ?_
  refine .ite (fun _ => .bind (.pure _) fun name => ?_) fun _ =>
    .bind (.readMemory objectName_agrees) fun name => ?_
  all_goals exact .bind globals fun _ => .bind globals fun _ => .bind .get fun _ => .ask

end Output

end Checked

end ZMachine
