import ZMachine.Proofs.Checked.Memory
import ZMachine.Proofs.Machine.Effect

namespace ZMachine

def CallStack.Fits (s : CallStack) : Prop := ∀ f ∈ s, f.pc < 2 ^ 32

theorem CallStack.Fits.of_works {s t : CallStack} (h : s.Fits) (hw : s.Works t) : t.Fits := by
  cases hw with
  | empty => exact h
  | top hf =>
    obtain ⟨htop, hrest⟩ := List.forall_mem_cons.mp h
    exact List.forall_mem_cons.mpr ⟨hf.pc ▸ htop, hrest⟩

structure Core.Fits (c : Core) : Prop where
  frames : c.frames.Fits
  size : c.memory.bytes.size = c.pristine.bytes.size

namespace Checked

variable {α : Type}

def inMemory (act : Work Memory α) : Work Core α := fun ⟨memory, pristine, frames⟩ =>
  match act memory with
  | .ok a memory => .ok a ⟨memory, pristine, frames⟩
  | .error e memory => .error e ⟨memory, pristine, frames⟩

def inFrames (act : Work CallStack α) : Work Core α := fun ⟨memory, pristine, frames⟩ =>
  match act frames with
  | .ok a frames => .ok a ⟨memory, pristine, frames⟩
  | .error e frames => .error e ⟨memory, pristine, frames⟩

def onTop (act : Action Frame α) : Work Core α := inFrames (plainly (CallStack.onTop act))

def globalAddress (m : Memory) (n : UInt8) : Calc Nat :=
  if n < 16 then raise (.invalidStory (.notGlobal n))
  else do add 32 m.globalVariables.toNat (← mul 32 (← sub n.toNat 16) 2)

def readGlobal (m : Memory) (n : UInt8) : Calc UInt16 := do word m (← globalAddress m n)

def writeGlobal (n : UInt8) (v : UInt16) : Work Memory Unit := do
  setWord (← read (globalAddress · n)) v

def readVariable (n : UInt8) : Work Core UInt16 := do
  if n = 0 then onTop Frame.pop
  else if n < 16 then
    let i ← sub n.toNat 1
    onTop ((·.readLocal i) <$> get)
  else inMemory (read (readGlobal · n))

def writeVariable (n : UInt8) (v : UInt16) : Work Core Unit := do
  if n = 0 then onTop (Frame.push v)
  else if n < 16 then
    let i ← sub n.toNat 1
    onTop (modify (Frame.writeLocal i v))
  else inMemory (writeGlobal n v)

def readIndirect (n : UInt8) : Work Core UInt16 :=
  if n = 0 then onTop (Action.reading Frame.peek) else readVariable n

def writeIndirect (n : UInt8) (v : UInt16) : Work Core Unit :=
  if n = 0 then onTop (Frame.replaceTop v) else writeVariable n v

def newestFrame (s : CallStack) : Calc Frame := do
  let last ← sub s.length 1
  element s.reverse[last]?

def pushFrame (f : Frame) : Work CallStack Unit := do
  plainly (CallStack.push f)
  let _ ← read newestFrame

def mainFrame (m : Memory) : Calc Frame :=
  if m.version ≤ 5 then .ok { pc := m.initialPc.toNat }
  else do
    let entry ← unpack m m.routinesOffset m.initialPc
    let n ← byte m entry
    return { pc := ← add 32 entry 1, numLocals := min n Core.maxLocals }

def reset : Work Core Unit := fun c =>
  match beginning c.pristine.size c.memory with
  | .error e => .error e c
  | .ok () =>
    let memory := Core.restored c.pristine c.memory.flags2
    match mainFrame memory with
    | .error e => .error e ⟨memory, c.pristine, []⟩
    | .ok main =>
      match newestFrame [main] with
      | .error e => .error e ⟨memory, c.pristine, [main]⟩
      | .ok _ => .ok () ⟨memory, c.pristine, [main]⟩

def checksum (c : Core) : Calc UInt16 := do
  let length ← mul 64 (c.memory.headerWord 0x1A).toNat (lengthUnit c.memory.version)
  let stop := min length c.pristine.size
  if stop ≤ 64 then return 0
  else
    span 64 stop c.pristine.size
    return (c.pristine.bytes.extract 64 stop).foldl (fun sum b => sum + b.toUInt16) 0

def initialValues (m : Memory) : Nat → Nat → Calc (List UInt16 × Nat)
  | 0, pc => return ([], pc)
  | n + 1, pc => do
    let w ← word m pc
    let (ws, pc) ← initialValues m n (← add 32 pc 2)
    return (w :: ws, pc)

def bound (args : List UInt16) (n : Nat) : Calc Nat := do
  let count := min args.length n
  span 0 count 16
  span 0 count args.length
  sub args.length count

def routineFrame (version : UInt8) (a : Nat) (args : List UInt16) (store : Option UInt8)
    (m : Memory) : Calc Frame := do
  let n ← byte m a
  if Core.maxLocals < n then raise (.invalidStory (.tooManyLocals a n))
  else
    let pc ← add 32 a 1
    let (initial, pc) ← if version < 5 then initialValues m n.toNat pc else pure ([], pc)
    let _ ← bound args n.toNat
    return {
      pc
      locals := Machine.bindLocals n.toNat args initial
      numLocals := n
      arity := UInt8.ofNat args.length
      storeTo := store }

section Parts

theorem Tracks.inMemory {x : Work Memory α} {y : Action Memory α}
    (h : ∀ n, Tracks (Memory.Sized n) x y) : Tracks Core.Fits (inMemory x) (Core.onMemory y) := by
  rintro ⟨memory, pristine, frames⟩ hc
  obtain ⟨hr, hs⟩ := h _ memory rfl
  unfold Checked.inMemory Core.onMemory
  dsimp only
  generalize x memory = r, y memory = q at hr hs
  cases hr with
  | ok a m => exact ⟨.ok _ _, hc.frames, hs.trans hc.size⟩
  | error m he => exact ⟨.error _ he, hc.frames, hs.trans hc.size⟩

theorem Tracks.inFrames {x : Work CallStack α} {y : Action CallStack α}
    (h : Tracks CallStack.Fits x y) : Tracks Core.Fits (inFrames x) (Core.onFrames y) := by
  rintro ⟨memory, pristine, frames⟩ hc
  obtain ⟨hr, hs⟩ := h frames hc.frames
  unfold Checked.inFrames Core.onFrames
  dsimp only
  generalize x frames = r, y frames = q at hr hs
  cases hr with
  | ok a s => exact ⟨.ok _ _, hs, hc.size⟩
  | error s he => exact ⟨.error _ he, hs, hc.size⟩

theorem onTop_mild {act : Action Frame α} (h : Mild act) : Mild (CallStack.onTop act) := by
  intro s e t hs
  cases s with
  | nil =>
    cases hs
    trivial
  | cons f rest =>
    cases ha : act f with
    | ok a g =>
      rw [CallStack.onTop_ok rest ha] at hs
      cases hs
    | error e g =>
      rw [CallStack.onTop_error rest ha] at hs
      cases hs
      exact h f _ g ha

theorem Tracks.onTop {act : Action Frame α} (mild : Mild act) (works : Leads Frame.Works act) :
    Tracks Core.Fits (onTop act) (Core.onTop act) :=
  .inFrames (.plainly (onTop_mild mild) fun s hs => hs.of_works (CallStack.onTop_works works s))

theorem pop_mild : Mild Frame.pop := by
  intro f e g h
  unfold Frame.pop at h
  split at h
  · cases h
    trivial
  · cases h

theorem push_mild {v : UInt16} : Mild (Frame.push v) := by
  intro f e g h
  unfold Frame.push at h
  split at h
  · cases h
    trivial
  · cases h

theorem replaceTop_mild {v : UInt16} : Mild (Frame.replaceTop v) := by
  intro f e g h
  unfold Frame.replaceTop at h
  split at h
  · cases h
    trivial
  · cases h

theorem peek_mild : Mild (Action.reading Frame.peek) := by
  intro f e g h
  unfold Action.reading Frame.peek at h
  split at h
  · cases h
  · next hp =>
    split at hp
    · cases hp
      cases h
      trivial
    · cases hp

end Parts

section Variables

variable {m : Memory} {n : UInt8} {v : UInt16}

theorem globalAddress_lt {a : Nat} (h : Core.globalAddress m n = .ok a) : a < 2 ^ 17 := by
  have hg := m.globalVariables.toNat_lt
  have hn := n.toNat_lt
  unfold Core.globalAddress at h
  split at h
  · cases h
  · cases h
    omega

theorem globalAddress_agrees : Agrees (globalAddress m n) (Core.globalAddress m n) := by
  have hg := m.globalVariables.toNat_lt
  have hn := n.toNat_lt
  unfold globalAddress Core.globalAddress
  refine .ite (fun _ => .error trivial) fun h => ?_
  have late : 16 ≤ n.toNat := UInt8.le_iff_toNat_le.mp (UInt8.not_lt.mp h)
  simp (disch := omega) only [sub_of_le, mul_of_lt, add_of_lt, ok_bind]
  exact .ok _

theorem readGlobal_agrees : Agrees (readGlobal m n) (Core.readGlobal m n) := by
  refine .bind globalAddress_agrees fun a ha => word_agrees ?_
  have hb := globalAddress_lt ha
  omega

theorem writeGlobal_tracks {k : Nat} :
    Tracks (Memory.Sized k) (writeGlobal n v) (Core.writeGlobal n v) := by
  refine .bind_read (fun _ _ => globalAddress_agrees) fun a _ ha => setWord_tracks ?_
  have hb := globalAddress_lt ha
  omega

theorem local_pos (h : n ≠ 0) : 1 ≤ n.toNat :=
  Nat.pos_of_ne_zero fun hz => h (UInt8.toNat_inj.mp hz)

theorem readVariable_tracks : Tracks Core.Fits (readVariable n) (Core.readVariable n) := by
  refine .ite (fun _ => .onTop pop_mild Frame.pop_works) fun h => .ite (fun _ => ?_) fun _ => ?_
  · rw [sub_of_le (local_pos h), lift_ok_bind]
    exact .onTop (fun _ _ _ h => by cases h) (.map _ .get)
  · exact .inMemory fun _ => .read fun _ _ => readGlobal_agrees

theorem writeVariable_tracks : Tracks Core.Fits (writeVariable n v) (Core.writeVariable n v) := by
  refine .ite (fun _ => .onTop push_mild Frame.push_works) fun h => .ite (fun _ => ?_) fun _ => ?_
  · rw [sub_of_le (local_pos h), lift_ok_bind]
    exact .onTop (fun _ _ _ h => by cases h) (.modify (Frame.writeLocal_works _ v))
  · exact .inMemory fun _ => writeGlobal_tracks

theorem readIndirect_tracks : Tracks Core.Fits (readIndirect n) (Core.readIndirect n) :=
  .ite (fun _ => .onTop peek_mild (.reading _)) fun _ => readVariable_tracks

theorem writeIndirect_tracks : Tracks Core.Fits (writeIndirect n v) (Core.writeIndirect n v) :=
  .ite (fun _ => .onTop replaceTop_mild Frame.replaceTop_works) fun _ => writeVariable_tracks

end Variables

section Frames

variable {m : Memory} {f : Frame}

theorem newestFrame_eq (f : Frame) (s : CallStack) : newestFrame (f :: s) = .ok f := by
  have last : (f :: s).reverse[(f :: s).length - 1]? = some f := by simp
  unfold newestFrame
  rw [sub_of_le (by simp), ok_bind, last]
  rfl

theorem pushFrame_tracks (hf : f.pc < 2 ^ 32) :
    Tracks CallStack.Fits (pushFrame f) (CallStack.push f) := by
  intro s hs
  unfold pushFrame
  by_cases full : callDepthLimit ≤ s.length
  · have hp : CallStack.push f s = .error (.stackOverflow callDepthLimit) s := if_pos full
    have hx : plainly (CallStack.push f) s = .error (.fault (.stackOverflow callDepthLimit)) s := by
      rw [plainly, hp]
      rfl
    rw [bind_error _ hx, hp]
    exact ⟨.error s trivial, hs⟩
  · have hp : CallStack.push f s = .ok () (f :: s) := if_neg full
    have hx : plainly (CallStack.push f) s = .ok () (f :: s) := by
      rw [plainly, hp]
      rfl
    have hr : read newestFrame (f :: s) = .ok f (f :: s) := by rw [read, newestFrame_eq]
    rw [bind_ok _ hx, bind_ok _ hr, hp]
    exact ⟨.ok _ _, List.forall_mem_cons.mpr ⟨hf, hs⟩⟩

theorem mainFrame_agrees : Agrees (mainFrame m) (Core.mainFrame m) := by
  have hu := unpack_lt m m.routinesOffset m.initialPc
  unfold mainFrame Core.mainFrame
  refine .ite (fun _ => .ok _) fun _ => ?_
  rw [unpack_eq, ok_bind]
  refine .bind (byte_agrees (Nat.lt_trans hu (by decide))) fun n _ => ?_
  rw [add_of_lt (by omega)]
  exact .ok _

theorem mainFrame_lt (h : Core.mainFrame m = .ok f) : f.pc < 2 ^ 32 := by
  have hp := m.initialPc.toNat_lt
  have hu := unpack_lt m m.routinesOffset m.initialPc
  unfold Core.mainFrame at h
  split at h
  · cases h
    dsimp only
    omega
  · obtain ⟨b, -, h⟩ := ok_of_bind_except h
    cases h
    dsimp only [Memory.unpackRoutine]
    omega

theorem reset_tracks : Tracks Core.Fits reset Core.reset := by
  intro c hc
  have hs := c.pristine.size_le
  -- both images have the same size, so that the loaded one is copied as a whole
  have hb : beginning c.pristine.size c.memory = .ok () := by
    unfold beginning Memory.size
    have hz : (0 : Nat) < 2 ^ 32 := by decide
    rw [Nat.mod_eq_of_lt (by omega), check_inside hz (by rw [hc.size]; omega), ok_bind]
    exact span_of_le (Nat.zero_le _) (Nat.le_of_eq hc.size.symm)
  have size : (Core.restored c.pristine c.memory.flags2).bytes.size = c.pristine.bytes.size :=
    Memory.size_setHeaderWord ..
  have hm := mainFrame_agrees (m := Core.restored c.pristine c.memory.flags2)
  unfold reset Core.reset
  rw [hb]
  dsimp only
  cases hf : Core.mainFrame (Core.restored c.pristine c.memory.flags2) with
  | error e =>
    rw [hf] at hm
    rw [hm.eq_plain]
    exact ⟨.error _ hm.expected, List.forall_mem_nil _, size⟩
  | ok main =>
    rw [hf] at hm
    rw [hm.eq_plain]
    dsimp only [plain]
    rw [newestFrame_eq]
    exact ⟨.ok _ _, List.forall_mem_singleton.mpr (mainFrame_lt hf), size⟩

theorem lengthUnit_le (version : UInt8) : lengthUnit version ≤ 8 := by
  unfold lengthUnit
  split
  · decide
  · split <;> decide

theorem checksum_eq (c : Core) : checksum c = .ok c.checksum := by
  have hw := (c.memory.headerWord 0x1A).toNat_lt
  have hl := Nat.mul_le_mul (Nat.le_of_lt hw) (lengthUnit_le c.memory.version)
  unfold checksum Core.checksum Memory.fileLength
  rw [mul_of_lt (by omega), ok_bind]
  generalize (c.memory.headerWord 0x1A).toNat * lengthUnit c.memory.version = length
  have cut : c.pristine.bytes.extract 64 (min length c.pristine.size) =
      c.pristine.bytes.extract 64 length := by
    apply Array.ext
    · simp only [Array.size_extract, Memory.size]
      omega
    · intro i _ _
      simp only [Array.getElem_extract]
  dsimp only
  split
  · next short =>
    rw [← cut, Array.extract_empty_of_stop_le_start short]
    rfl
  · next long =>
    rw [span_of_le (by omega) (Nat.min_le_right ..), ok_bind, cut]
    rfl

theorem initialValues_agrees {n pc : Nat} (h : pc + 2 * n < 2 ^ 32) :
    Agrees (initialValues m n pc) ((fun ws => (ws, pc + 2 * ws.length)) <$> m.words pc n) := by
  induction n generalizing pc with
  | zero => exact .ok _
  | succ n ih =>
    unfold initialValues Memory.words
    rw [map_bind]
    refine .bind (word_agrees (by omega)) fun w _ => ?_
    rw [add_of_lt (by omega), ok_bind, map_bind]
    have rest := @ih (pc + 2) (by omega)
    generalize m.words (pc + 2) n = words at rest
    cases words with
    | error e =>
      rw [rest.eq_plain]
      exact .error rest.expected
    | ok ws =>
      have next : pc + 2 + 2 * ws.length = pc + 2 * (w :: ws).length := by
        rw [List.length_cons]
        omega
      rw [rest.eq_plain]
      change Agrees (.ok (w :: ws, pc + 2 + 2 * ws.length)) (.ok (w :: ws, pc + 2 * (w :: ws).length))
      rw [next]
      exact .ok _

theorem bound_eq {args : List UInt16} {n : Nat} (h : n ≤ 15) :
    bound args n = .ok (args.length - min args.length n) := by
  unfold bound
  dsimp only
  rw [span_of_le (Nat.zero_le _) (by omega), span_of_le (Nat.zero_le _) (by omega), ok_bind, ok_bind,
    sub_of_le (by omega)]

theorem words_length {a n : Nat} {ws : List UInt16} (h : m.words a n = .ok ws) : ws.length = n := by
  induction n generalizing a ws with
  | zero =>
    cases h
    rfl
  | succ n ih =>
    obtain ⟨w, -, h⟩ := ok_of_bind_except h
    obtain ⟨rest, hr, h⟩ := ok_of_bind_except h
    cases h
    rw [List.length_cons, ih hr]

variable {version : UInt8} {a : Nat} {args : List UInt16} {store : Option UInt8}

theorem routineFrame_agrees (ha : a < 2 ^ 20) :
    Agrees (routineFrame version a args store m) (Machine.routineFrame version a args store m) := by
  unfold routineFrame Machine.routineFrame
  refine .bind (byte_agrees (by omega)) fun n _ => ?_
  dsimp only
  refine .ite (fun _ => .error trivial) fun few => ?_
  have hn : n.toNat ≤ 15 := UInt8.le_iff_toNat_le.mp (UInt8.not_lt.mp few)
  rw [add_of_lt (by omega), ok_bind, bound_eq hn]
  refine .ite (fun _ => ?_) fun _ => .ok _
  have values := @initialValues_agrees m n.toNat (a + 1) (by omega)
  generalize m.words (a + 1) n.toNat = words at values
  cases words with
  | error e =>
    rw [values.eq_plain]
    exact .error values.expected
  | ok initial =>
    rw [values.eq_plain]
    exact .ok _

theorem routineFrame_lt (ha : a < 2 ^ 20) (h : Machine.routineFrame version a args store m = .ok f) :
    f.pc < 2 ^ 32 := by
  obtain ⟨n, -, h⟩ := ok_of_bind_except h
  have hn := n.toNat_lt
  dsimp only at h
  split at h
  · cases h
  · split at h
    · obtain ⟨initial, hw, h⟩ := ok_of_bind_except h
      have hl := words_length hw
      cases h
      dsimp only
      omega
    · cases h
      dsimp only [List.length_nil]
      omega

end Frames

end Checked

end ZMachine
