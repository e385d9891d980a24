import ZMachine.Proofs.Machine.Restart

/-!
Undoing. What a run has saved and not yet gone back to is a stack of the ten newest saves, and
going back to one of them brings back its call stack and its dynamic memory. The story then sees
the same instruction end once more, with another result.
-/

namespace ZMachine

namespace Memory

theorem copyFrom_start {m n : Memory} (hs : m.SameSize n) (base : Nat) :
    ∃ r, copyFrom (m.bytes.extract 0 base) n = .ok () r ∧ n.SameSize r ∧
      (∀ a, a < min base m.size → r.byte a = m.byte a) ∧
      ∀ a, min base m.size ≤ a → r.byte a = n.byte a := by
  have size : n.bytes.size = m.bytes.size := hs
  have start : (m.bytes.extract 0 base).size = min base m.size := by
    rw [Array.size_extract, Nat.sub_zero, Memory.size]
  have fits : (m.bytes.extract 0 base).size ≤ n.bytes.size := by
    rw [start, size, Memory.size]
    omega
  obtain ⟨r, hcopy, hc, hbytes⟩ := copyFrom_ok fits
  refine ⟨r, hcopy, hc.size, fun a ha => ?_, fun a ha => ?_⟩
  · have inside : a < m.bytes.size := Nat.lt_of_lt_of_le ha (Nat.min_le_right ..)
    rw [hbytes a (by omega), Array.getElem_extract, byte, dif_pos inside]
    simp only [Nat.zero_add]
  · apply hc.byte
    omega

end Memory

namespace Core

variable {α : Type}

theorem onFrames_memory (act : Action CallStack α) (c : Core) :
    (ending (onFrames act c)).memory = c.memory := by
  cases hs : act c.frames with
  | ok a frames => rw [onFrames_ok hs, ending_ok]
  | error e frames => rw [onFrames_error hs, ending_error]

theorem onMemory_memory (act : Action Memory α) (c : Core) :
    (ending (onMemory act c)).memory = ending (act c.memory) := by
  cases hs : act c.memory with
  | ok a m => rw [onMemory_ok hs, ending_ok, ending_ok]
  | error e m => rw [onMemory_error hs, ending_error, ending_error]

theorem readVariable_state {n : UInt8} (hn : n ≠ 0) : Leads Eq (readVariable n) := by
  unfold readVariable
  rw [if_neg hn]
  refine .ite ?_ ?_
  · rintro ⟨memory, pristine, _ | ⟨f, rest⟩⟩ <;> rfl
  · intro c
    cases hr : readGlobal c.memory n with
    | ok v => rw [readMemory, onMemory_ok (reading_ok hr), ending_ok]
    | error e =>
      have hr' : Action.reading (readGlobal · n) c.memory = .error e c.memory := by
        rw [Action.reading, hr]
      rw [readMemory, onMemory_error hr', ending_error]

theorem writeGlobal_again {n : UInt8} {v w : UInt16} {m r : Memory} (size : m.SameSize r)
    (table : r.globalVariables = m.globalVariables)
    (bytes : ∀ a, r.byte a = m.byte a ∨ r.byte a = (ending (writeGlobal n w m)).byte a) :
    writeGlobal n v r = writeGlobal n v m := by
  -- The two writes to a global go to the same word, since the table of globals is where it was.
  cases hx : globalAddress m n with
  | error e =>
    have failed (u : UInt16) {p : Memory} (hp : globalAddress p n = .error e) :
        writeGlobal n u p = .error e p := by
      have hr : Action.reading (globalAddress · n) p = .error e p := by rw [Action.reading, hp]
      exact bind_error _ hr
    have same : r = m := by
      apply Memory.eq_of_bytes size
      intro a
      have ha := bytes a
      rw [failed w hx] at ha
      exact ha.elim id id
    rw [same]
  | ok x =>
    have written (u : UInt16) {p : Memory} (hp : globalAddress p n = .ok x) :
        writeGlobal n u p = Memory.setWord x u p :=
      bind_ok _ (reading_ok hp)
    have hx' : globalAddress r n = .ok x := by
      rw [globalAddress, table]
      exact hx
    rw [written v hx, written v hx']
    rw [written w hx] at bytes
    by_cases inside : x + 1 < m.bytes.size
    · obtain ⟨p, hp, changes, -⟩ := Memory.setWord_ok w inside
      rw [hp] at bytes
      refine Memory.setWord_of_changesAt v ⟨size, fun b hb => ?_⟩ inside
      have hb' := bytes b
      rw [ending_ok, changes.byte b hb] at hb'
      exact hb'.elim id id
    · have same : r = m := by
        apply Memory.eq_of_bytes size
        intro a
        have ha := bytes a
        rw [Memory.setWord, dif_neg inside] at ha
        exact ha.elim id id
      rw [same]

theorem writeVariable_again {n : UInt8} {v w : UInt16} {c d : Core} (frames : d.frames = c.frames)
    (pristine : d.pristine = c.pristine) (size : c.memory.SameSize d.memory)
    (table : d.memory.globalVariables = c.memory.globalVariables)
    (bytes : ∀ a, d.memory.byte a = c.memory.byte a ∨
      d.memory.byte a = (ending (writeVariable n w c)).memory.byte a) :
    writeVariable n v d = writeVariable n v c := by
  have onStack (act : Action CallStack Unit) (h : writeVariable n w = onFrames act) : d = c := by
    have memory : d.memory = c.memory := by
      apply Memory.eq_of_bytes size
      intro a
      have ha := bytes a
      rw [h, onFrames_memory] at ha
      exact ha.elim id id
    cases c
    cases d
    cases memory
    cases frames
    cases pristine
    rfl
  by_cases stack : n = 0
  · rw [onStack _ (if_pos stack)]
  · by_cases isLocal : n < 16
    · rw [onStack _ ((if_neg stack).trans (if_pos isLocal))]
    · have global (u : UInt16) : writeVariable n u = onMemory (writeGlobal n u) :=
        (if_neg stack).trans (if_neg isLocal)
      rw [global, onMemory_memory] at bytes
      rw [global]
      have again := writeGlobal_again (v := v) size table bytes
      cases c
      cases d
      cases frames
      cases pristine
      simp only [onMemory, again]

end Core

namespace Machine

variable {η : Type}

theorem onCore_core {α : Type} (act : Action Core α) (s : Machine η) :
    (ending (onCore act s)).core = ending (act s.core) := by
  cases hs : act s.core with
  | ok a c => rw [onCore_ok hs, ending_ok, ending_ok]
  | error e c => rw [onCore_error hs, ending_error, ending_error]

theorem onCore_state {α : Type} {act : Action Core α} (h : Leads Eq act) :
    Leads Eq (onCore act : Action (Machine η) α) := by
  intro s
  have hc := h s.core
  cases hs : act s.core with
  | ok a c => rw [onCore_ok hs, ending_ok, ← ending_ok (ε := Fault) a c, ← hs, ← hc]
  | error e c => rw [onCore_error hs, ending_error, ← ending_error (α := α) e c, ← hs, ← hc]

def SameMemory (s t : Machine η) : Prop := t.core.memory = s.core.memory

instance : IsPreorder (Machine η) SameMemory where
  refl _ := rfl
  trans _ _ _ h h' := h'.trans h

theorem resolveOperands_memory {os : List Operand} :
    Leads SameMemory (resolveOperands os : Action (Machine η) (List UInt16)) := by
  have read (n : UInt8) (c : Core) : (ending (Core.readVariable n c)).memory = c.memory := by
    unfold Core.readVariable
    split
    · exact Core.onFrames_memory ..
    · split
      · exact Core.onFrames_memory ..
      · rw [Core.readMemory, Core.onMemory_memory]
        exact (Leads.reading (R := Eq) _ c.memory).symm
  induction os with
  | nil => exact .pure _
  | cons o rest ih =>
    refine .bind ?_ fun _ => .bind ih fun _ => .pure _
    unfold resolveOperand
    split
    · intro s
      rw [SameMemory, onCore_core, read]
    · exact .pure _

theorem resolveOperands_state {os : List Operand}
    (h : ∀ o ∈ os, o.kind = .variable → o.raw.toUInt8 ≠ 0) :
    Leads Eq (resolveOperands os : Action (Machine η) (List UInt16)) := by
  induction os with
  | nil => exact .pure _
  | cons o rest ih =>
    rw [List.forall_mem_cons] at h
    refine .bind ?_ fun _ => .bind (ih h.2) fun _ => .pure _
    unfold resolveOperand
    split
    · next kind => exact onCore_state (Core.readVariable_state (h.1 kind))
    · exact .pure _

theorem storeTo_again {store : Option UInt8} {v w : UInt16} {r s : Machine η}
    (frames : r.core.frames = s.core.frames) (pristine : r.core.pristine = s.core.pristine)
    (size : s.core.memory.SameSize r.core.memory)
    (table : r.core.memory.globalVariables = s.core.memory.globalVariables)
    (bytes : ∀ a, r.core.memory.byte a = s.core.memory.byte a ∨
      r.core.memory.byte a = (ending (storeTo store w s)).core.memory.byte a) :
    (ending (storeTo store v r)).core = (ending (storeTo store v s)).core := by
  cases store with
  | none =>
    have memory : r.core.memory = s.core.memory :=
      Memory.eq_of_bytes size fun a => (bytes a).elim id id
    change r.core = s.core
    calc r.core = ⟨r.core.memory, r.core.pristine, r.core.frames⟩ := rfl
      _ = ⟨s.core.memory, s.core.pristine, s.core.frames⟩ := by rw [memory, pristine, frames]
  | some n =>
    have written (u : UInt16) (x : Machine η) :
        (ending (storeTo (some n) u x)).core = ending (Core.writeVariable n u x.core) :=
      onCore_core ..
    simp only [written] at bytes ⊢
    rw [Core.writeVariable_again frames pristine size table bytes]

theorem storeTo_congr {store : Option UInt8} {v : UInt16} {r s : Machine η} (h : r.core = s.core) :
    (ending (storeTo store v r)).core = (ending (storeTo store v s)).core := by
  apply storeTo_again (w := v)
  all_goals rw [h]
  · rfl
  · exact fun a => .inl rfl

def readied (s : Machine η) : Option (Instruction × Machine η) :=
  match s.upcoming with
  | .error _ => none
  | .ok i =>
    match resolveOperands i.operands (s.fetched i.next) with
    | .error _ _ => none
    | .ok _ t => some (i, t)

theorem readied_some {s t : Machine η} {i : Instruction} (h : s.readied = some (i, t)) :
    s.upcoming = .ok i ∧
      ∃ operands, resolveOperands i.operands (s.fetched i.next) = .ok operands t := by
  unfold readied at h
  cases hu : s.upcoming with
  | error e =>
    rw [hu] at h
    cases h
  | ok j =>
    rw [hu] at h
    dsimp only at h
    cases hr : resolveOperands j.operands (s.fetched j.next) with
    | error e u =>
      rw [hr] at h
      cases h
    | ok operands u =>
      rw [hr] at h
      cases h
      exact ⟨rfl, operands, hr⟩

theorem memory_of_readied {s t : Machine η} {i : Instruction}
    (h : s.readied = some (i, t)) : t.core.memory = s.core.memory := by
  obtain ⟨-, operands, hops⟩ := readied_some h
  have same : SameMemory (s.fetched i.next) t := resolveOperands_memory.of_ok hops
  exact same

/-- A save that was made: the machine before the step, the instruction, and the state in which it
had its operands. -/
structure Save (η : Type) where
  before : Machine η
  instruction : Instruction
  state : Machine η

namespace Save

def snapshot (p : Save η) : Snapshot := p.state.snapshot p.instruction.store

def extent (p : Save η) : Nat :=
  min p.before.core.memory.staticMemoryBase.toNat p.before.core.memory.size

def broughtBack (p : Save η) (m : Memory) (older : List Snapshot) (t : Machine η) : Machine η :=
  { t with core := ⟨m, t.core.pristine, p.state.core.frames⟩, undo := older }

structure Made [Host η] (image : Array UInt8) (p : Save η) : Prop where
  reachable : Reachable image p.before
  readied : p.before.readied = some (p.instruction, p.state)
  mnemonic : p.instruction.mnemonic = .saveUndo

end Save

/-- What a step does to the saves that can still be gone back to, the newest first. -/
def record (s : Machine η) (saves : List (Save η)) : List (Save η) :=
  match s.readied with
  | none => saves
  | some (i, t) =>
    match i.mnemonic with
    | .saveUndo => (⟨s, i, t⟩ :: saves).take 10
    | .restoreUndo => saves.tail
    | .restart => []
    | _ => saves

/-- A machine that steps lead to, with the saves that can still be gone back to. -/
inductive Recorded [Host η] (image : Array UInt8) : Machine η → List (Save η) → Prop
  | boot {host : η} {s : Machine η} (h : boot image host = .ok s) : Recorded image s []
  | step {s : Machine η} {saves : List (Save η)} (h : Recorded image s saves) :
    Recorded image s.after (s.record saves)

section Host

variable [Host η] {image : Array UInt8} {s t : Machine η} {saves : List (Save η)}
  {i : Instruction} {operands : List UInt16}

theorem Recorded.reachable (h : Recorded image s saves) : Reachable image s := by
  induction h with
  | boot h => exact .boot h
  | step _ ih => exact .step ih

theorem Reachable.recorded (h : Reachable image s) : ∃ saves, Recorded image s saves := by
  induction h with
  | boot h => exact ⟨[], .boot h⟩
  | @step s _ ih =>
    obtain ⟨saves, hs⟩ := ih
    exact ⟨s.record saves, .step hs⟩

/-- A step that ends, from the state `r`, with the storing of a result. -/
def StoresLast (s : Machine η) (i : Instruction) (store : Option UInt8) (v : UInt16)
    (r : Machine η) : Prop :=
  (∀ u, storeTo store v r = .ok () u → step s = .ok .proceeded u) ∧
    ∀ e u, storeTo store v r = .error e u → step s = .error (.during (u.site i) (.plain e)) u

theorem storesLast_of_execute {store : Option UInt8} {v : UInt16} {r : Machine η}
    (hu : s.upcoming = .ok i)
    (hx : execute i (s.fetched i.next) =
      (do storeTo store v; return .proceeded : Action (Machine η) Outcome) r) :
    s.StoresLast i store v r := by
  constructor
  · intro u h
    rw [bind_ok _ h] at hx
    exact step_of_ok hu hx (by decide)
  · intro e u h
    rw [bind_error _ h] at hx
    exact step_of_error hu hx

theorem StoresLast.after_eq {store : Option UInt8} {v : UInt16} {r : Machine η}
    (h : s.StoresLast i store v r) : s.after = ending (storeTo store v r) := by
  unfold after
  cases hs : storeTo store v r with
  | ok a u => rw [h.1 u hs, ending_ok, ending_ok]
  | error e u => rw [h.2 e u hs, ending_error, ending_error]

theorem StoresLast.undo_eq {store : Option UInt8} {v : UInt16} {r : Machine η}
    (h : s.StoresLast i store v r) : s.after.undo = r.undo := by
  rw [h.after_eq]
  exact (storeTo_quiet r).undo

theorem undo_supported {version : UInt8} (shape : i.Shaped version)
    (h : i.mnemonic = .saveUndo ∨ i.mnemonic = .restoreUndo) : i.descriptor.minVersion ≤ version := by
  obtain ⟨form, since⟩ := shape.controlled.undo h
  rw [since]
  exact shape.ext form

theorem execute_undo (hu : s.upcoming = .ok i)
    (hr : resolveOperands i.operands (s.fetched i.next) = .ok operands t)
    (h : i.mnemonic = .saveUndo ∨ i.mnemonic = .restoreUndo) :
    execute i (s.fetched i.next) = executeControl i operands t := by
  obtain ⟨pc, -, hi⟩ := pc_of_upcoming hu
  have version : t.version = s.version := (resolveOperands_quiet.of_ok hr).version
  have family : i.mnemonic.family? = some .control := by
    obtain hm | hm := h <;> rw [hm] <;> rfl
  have old := undo_supported (Memory.instruction_shaped hi) h
  exact execute_of_family hr (version ▸ old) family

theorem storesLast_save (hr : s.readied = some (i, t)) (h : i.mnemonic = .saveUndo) :
    s.StoresLast i i.store 1 { t with undo := (t.snapshot i.store :: t.undo).take undoLimit } := by
  obtain ⟨hu, operands, hops⟩ := readied_some hr
  apply storesLast_of_execute hu
  rw [execute_undo hu hops (.inl h)]
  unfold executeControl
  rw [h]
  rfl

theorem storesLast_restore_nil (hr : s.readied = some (i, t)) (h : i.mnemonic = .restoreUndo)
    (undo : t.undo = []) : s.StoresLast i i.store 0 t := by
  obtain ⟨hu, operands, hops⟩ := readied_some hr
  apply storesLast_of_execute hu
  rw [execute_undo hu hops (.inr h)]
  unfold executeControl
  rw [h]
  dsimp only
  rw [bind_get, undo]
  rfl

theorem storesLast_restore {p : Save η} {older : List Snapshot} (hr : s.readied = some (i, t))
    (h : i.mnemonic = .restoreUndo) (undo : t.undo = p.snapshot :: older)
    (size : p.state.core.memory.SameSize t.core.memory) :
    ∃ m, t.core.memory.SameSize m ∧
      (∀ a, a < min p.state.core.memory.staticMemoryBase.toNat p.state.core.memory.size →
        m.byte a = p.state.core.memory.byte a) ∧
      (∀ a, min p.state.core.memory.staticMemoryBase.toNat p.state.core.memory.size ≤ a →
        m.byte a = t.core.memory.byte a) ∧
      s.StoresLast i p.instruction.store 2 (p.broughtBack m older t) := by
  obtain ⟨hu, operands, hops⟩ := readied_some hr
  obtain ⟨m, hm, same, below, above⟩ :=
    Memory.copyFrom_start size p.state.core.memory.staticMemoryBase.toNat
  refine ⟨m, same, below, above, storesLast_of_execute hu ?_⟩
  have copied : onMemory (Memory.copyFrom p.snapshot.memory) { t with undo := older } =
      .ok () { t with core := { t.core with memory := m }, undo := older } :=
    onCore_ok (s := { t with undo := older }) (Core.onMemory_ok hm)
  rw [execute_undo hu hops (.inr h)]
  unfold executeControl
  rw [h]
  dsimp only
  rw [bind_get, undo]
  dsimp only
  change (do revert p.snapshot; return .proceeded : Action (Machine η) Outcome)
    { t with undo := older } = _
  rw [revert, bind_assoc, bind_ok _ copied, bind_assoc]
  rfl

theorem Effect.undo_eq {r : EStateM.Result Fault (Machine η) Outcome} (h : Effect i operands s r)
    (save : i.mnemonic ≠ .saveUndo) (restore : i.mnemonic ≠ .restoreUndo)
    (again : i.mnemonic ≠ .restart) : (ending r).undo = s.undo := by
  have delivered {store : Option UInt8} {v : UInt16} (u : Machine η) :
      (ending (deliver store v u)).undo = u.undo :=
    (Leads.bind storeTo_quiet (fun _ => .pure _) u : Quiet u _).undo
  cases h with
  | ends h =>
    cases h with
    | stays q _ => exact q.undo
    | jumps q _ _ => exact q.undo
    | returns q _ _ => exact (delivered _).trans q.undo
  | calls => rfl
  | unwinds => exact delivered _
  | strands => rfl
  | saves h => exact absurd h save
  | restarts h => exact absurd h again
  | reverts h _ => exact absurd h restore

theorem undo_of_not_readied (h : s.readied = none) : s.after.undo = s.undo := by
  unfold readied at h
  cases hu : s.upcoming with
  | error e => rw [after_of_no_upcoming hu]
  | ok i =>
    obtain ⟨quit, ha⟩ := after_of_upcoming hu
    rw [hu] at h
    dsimp only at h
    cases hr : resolveOperands i.operands (s.fetched i.next) with
    | ok operands t =>
      rw [hr] at h
      cases h
    | error e t =>
      have hx : execute i (s.fetched i.next) = .error e t := bind_error _ hr
      rw [ha, hx]
      exact (resolveOperands_quiet.of_error hr).undo

namespace Save.Made

variable {p : Save η}

theorem memory_eq (h : p.Made image) : p.state.core.memory = p.before.core.memory :=
  memory_of_readied h.readied

theorem sameSize (h : p.Made image) (reach : Reachable image s) :
    p.state.core.memory.SameSize s.core.memory := by
  rw [h.memory_eq]
  exact reach.sound.size.trans h.reachable.sound.size.symm

end Save.Made

theorem undo_after (reach : Reachable image s) (made : ∀ p ∈ saves, p.Made image)
    (hs : s.undo = saves.map Save.snapshot) :
    s.after.undo = (s.record saves).map Save.snapshot := by
  unfold record
  cases hr : s.readied with
  | none => rw [undo_of_not_readied hr, hs]
  | some r =>
    obtain ⟨i, t⟩ := r
    obtain ⟨hu, operands, hops⟩ := readied_some hr
    have undo : t.undo = s.undo := (resolveOperands_quiet.of_ok hops).undo
    rw [hs] at undo
    dsimp only
    split
    · next save =>
      rw [(storesLast_save hr save).undo_eq, undo, List.map_take, List.map_cons]
      rfl
    · next restore =>
      cases saves with
      | nil =>
        rw [(storesLast_restore_nil hr restore undo).undo_eq]
        exact undo
      | cons p older =>
        have size := (made p List.mem_cons_self).sameSize reach
        rw [← memory_of_readied hr] at size
        obtain ⟨m, -, -, -, last⟩ := storesLast_restore hr restore undo size
        rw [last.undo_eq]
        rfl
    · next again =>
      obtain ⟨main, -, hstep⟩ := step_restart reach hu again
      rw [after, hstep]
      rfl
    · next save restore again =>
      obtain ⟨quit, ha⟩ := after_of_upcoming hu
      obtain ⟨e, u, hr', -⟩ | ⟨_, u, hr', effect⟩ := execute_cases i (s.fetched i.next)
      · rw [hops] at hr'
        cases hr'
      · rw [hops] at hr'
        cases hr'
        rw [ha, ← undo]
        exact effect.undo_eq save restore again

theorem record_made (reach : Reachable image s) (made : ∀ p ∈ saves, p.Made image) :
    ∀ p ∈ s.record saves, p.Made image := by
  intro p hp
  unfold record at hp
  cases hr : s.readied with
  | none =>
    rw [hr] at hp
    exact made p hp
  | some r =>
    obtain ⟨i, t⟩ := r
    rw [hr] at hp
    dsimp only at hp
    split at hp
    · next save =>
      cases List.mem_of_mem_take hp with
      | head => exact ⟨reach, hr, save⟩
      | tail _ hp => exact made p hp
    · exact made p (List.mem_of_mem_tail hp)
    · cases hp
    · exact made p hp

theorem Recorded.kept (h : Recorded image s saves) :
    (∀ p ∈ saves, p.Made image) ∧ s.undo = saves.map Save.snapshot := by
  induction h with
  | boot h =>
    obtain ⟨m, -, h⟩ := ok_of_bind_except h
    obtain ⟨c, -, h⟩ := ok_of_bind_except h
    cases h
    exact ⟨List.forall_mem_nil _, rfl⟩
  | step h ih =>
    obtain ⟨made, undo⟩ := ih
    exact ⟨record_made h.reachable made, undo_after h.reachable made undo⟩

namespace Save.Made

variable {p : Save η}

theorem state_eq (h : p.Made image)
    (constant : ∀ o ∈ p.instruction.operands, o.kind = .variable → o.raw.toUInt8 ≠ 0) :
    p.state = p.before.fetched p.instruction.next := by
  obtain ⟨-, operands, hops⟩ := readied_some h.readied
  exact ((resolveOperands_state constant).of_ok hops).symm

theorem core_after (h : p.Made image) :
    p.before.after.core = (ending (storeTo p.instruction.store 1 p.state)).core := by
  rw [(storesLast_save h.readied h.mnemonic).after_eq]
  exact storeTo_congr rfl

theorem pristine_eq (h : p.Made image) (reach : Reachable image s) :
    p.state.core.pristine = s.core.pristine := by
  obtain ⟨-, operands, hops⟩ := readied_some h.readied
  have hp : p.state.core.pristine = p.before.core.pristine :=
    (resolveOperands_quiet.of_ok hops).core.pristine
  exact hp.trans (Except.ok.inj (h.reachable.story.1.symm.trans reach.story.1))

theorem core_broughtBack (h : p.Made image) (reach : Reachable image s)
    (hr : s.readied = some (i, t)) {m : Memory} {older : List Snapshot}
    (size : t.core.memory.SameSize m)
    (below : ∀ a, a < p.extent → m.byte a = p.before.core.memory.byte a)
    (above : ∀ a, p.extent ≤ a → m.byte a = s.core.memory.byte a) (large : 64 ≤ p.extent)
    (same : ∀ a, p.extent ≤ a → s.core.memory.byte a = p.before.after.core.memory.byte a) :
    (ending (storeTo p.instruction.store 2 (p.broughtBack m older t))).core =
      (ending (storeTo p.instruction.store 2 p.state)).core := by
  have pristine : t.core.pristine = s.core.pristine := by
    obtain ⟨-, operands, hops⟩ := readied_some hr
    exact (resolveOperands_quiet.of_ok hops).core.pristine
  have sizes : p.state.core.memory.SameSize m := by
    rw [memory_of_readied hr] at size
    exact IsTrans.trans _ _ _ (h.sameSize reach) size
  have early {a : Nat} (ha : a < p.extent) : m.byte a = p.state.core.memory.byte a := by
    rw [h.memory_eq]
    exact below a ha
  have table : m.globalVariables = p.state.core.memory.globalVariables :=
    Memory.headerWord_congr sizes (early (Nat.lt_of_lt_of_le (by decide) large))
      (early (Nat.lt_of_lt_of_le (by decide) large))
  refine storeTo_again (r := p.broughtBack m older t) (w := 1) rfl
    (pristine.trans (h.pristine_eq reach).symm) sizes table fun a => ?_
  -- below the extent the bytes are those of the save, above it those that its result left
  by_cases ha : a < p.extent
  · exact .inl (early ha)
  · have ha' := Nat.le_of_not_lt ha
    right
    rw [← h.core_after, ← same a ha']
    exact above a ha'

end Save.Made

theorem undo_history (h : Recorded image s saves) :
    saves.length ≤ 10 ∧ s.undo = saves.map Save.snapshot ∧
      (∀ p ∈ saves, p.Made image ∧
        ((∀ o ∈ p.instruction.operands, o.kind = .variable → o.raw.toUInt8 ≠ 0) →
          p.state = p.before.fetched p.instruction.next)) ∧
      ∀ i t, s.readied = some (i, t) → i.mnemonic = .restoreUndo →
        (saves = [] → s.StoresLast i i.store 0 t) ∧
        ∀ p older, saves = p :: older →
          (∃ m, t.core.memory.SameSize m ∧
            (∀ a, a < p.extent → m.byte a = p.before.core.memory.byte a) ∧
            (∀ a, p.extent ≤ a → m.byte a = s.core.memory.byte a) ∧
            s.StoresLast i p.instruction.store 2
              (p.broughtBack m (older.map Save.snapshot) t)) ∧
          (64 ≤ p.extent →
            (∀ a, p.extent ≤ a →
              s.core.memory.byte a = p.before.after.core.memory.byte a) →
            p.before.after.core = (ending (storeTo p.instruction.store 1 p.state)).core ∧
            s.after.core = (ending (storeTo p.instruction.store 2 p.state)).core) := by
  obtain ⟨made, undo⟩ := h.kept
  have few : saves.length ≤ 10 := by
    rw [← List.length_map (f := Save.snapshot), ← undo]
    exact h.reachable.sound.undo
  refine ⟨few, undo, fun p hp => ⟨made p hp, (made p hp).state_eq⟩, ?_⟩
  intro i t hr restore
  obtain ⟨-, operands, hops⟩ := readied_some hr
  have ht : t.undo = s.undo := (resolveOperands_quiet.of_ok hops).undo
  rw [undo] at ht
  constructor
  · rintro rfl
    exact storesLast_restore_nil hr restore ht
  · rintro p older rfl
    have hp := made p List.mem_cons_self
    have size := hp.sameSize h.reachable
    rw [← memory_of_readied hr] at size
    obtain ⟨m, sizes, below, above, last⟩ := storesLast_restore hr restore ht size
    rw [hp.memory_eq] at below above
    rw [memory_of_readied hr] at above
    refine ⟨⟨m, sizes, below, above, last⟩, fun large same => ⟨hp.core_after, ?_⟩⟩
    rw [last.after_eq]
    exact hp.core_broughtBack h.reachable hr sizes below above large same

def wistfulStory : Array UInt8 :=
  -- Saves, and goes back at once; the results go to the evaluation stack.
  #[5, 0, 0, 0, 0, 0, 0, 0x40, 0, 0, 0, 0, 0, 0, 0, 0x40] ++ Array.replicate 48 0 ++
    #[0xBE, 0x09, 0xFF, 0, 0xBE, 0x0A, 0xFF, 0]

def wistfulMachine : Machine Playback :=
  let memory : Memory := ⟨wistfulStory, by decide, by decide⟩
  start ⟨memory, memory, [{ pc := 0x40 }]⟩ {}

theorem boot_wistfulStory : boot wistfulStory ({} : Playback) = .ok wistfulMachine := rfl

end Host

def wistfulSave : Save Playback where
  before := wistfulMachine
  instruction := {
    address := 0x40, descriptor := .extended 9, operands := [], store := some 0, branch := none,
    text := none, next := 0x44 }
  state := wistfulMachine.fetched 0x44

theorem undo_history_wistful :
    Recorded wistfulStory wistfulMachine.after [wistfulSave] ∧ wistfulSave.extent = 64 ∧
      wistfulMachine.after.core.frames.map Frame.stack = [[1]] ∧
      (ending (storeTo (some 0) 2 wistfulSave.state)).core.frames.map Frame.stack = [[2]] ∧
      wistfulMachine.after.after.core = (ending (storeTo (some 0) 2 wistfulSave.state)).core := by
  have saved : wistfulMachine.record [] = [wistfulSave] := rfl
  have recorded : Recorded wistfulStory wistfulMachine.after [wistfulSave] :=
    saved ▸ .step (.boot boot_wistfulStory)
  have extent : wistfulSave.extent = 64 := rfl
  obtain ⟨-, -, -, restores⟩ := undo_history recorded
  obtain ⟨i, t, readied, restore⟩ : ∃ i t, wistfulMachine.after.readied = some (i, t) ∧
    i.mnemonic = .restoreUndo := ⟨_, _, rfl, rfl⟩
  have back := ((restores i t readied restore).2 wistfulSave [] rfl).2 (Nat.le_of_eq extent.symm)
    (fun a _ => rfl)
  exact ⟨recorded, extent, rfl, rfl, back.2⟩

end Machine

end ZMachine
