import ZMachine.Proofs.Instruction.Operands
import ZMachine.Proofs.Machine.Step
import ZMachine.Proofs.Memory.Header

namespace ZMachine

structure Frame.Sound (f : Frame) : Prop where
  stack : f.stack.length ≤ 1024
  numLocals : f.numLocals ≤ 15
  arity : f.arity ≤ 7

theorem Frame.Sound.of_works {f g : Frame} (h : f.Sound) (hw : f.Works g) : g.Sound :=
  ⟨hw.stack h.stack, hw.numLocals ▸ h.numLocals, hw.arity ▸ h.arity⟩

theorem Frame.Sound.of_pc {f : Frame} (h : f.Sound) (pc : Nat) : Sound { f with pc } :=
  ⟨h.stack, h.numLocals, h.arity⟩

structure CallStack.Sound (s : CallStack) : Prop where
  nonempty : 1 ≤ s.length
  depth : s.length ≤ 1024
  frames : ∀ f ∈ s, f.Sound

namespace CallStack.Sound

variable {s t : CallStack} {f g : Frame}

theorem replace_top (h : Sound (f :: s)) (hg : g.Sound) : Sound (g :: s) :=
  ⟨h.nonempty, h.depth, List.forall_mem_cons.mpr ⟨hg, (List.forall_mem_cons.mp h.frames).2⟩⟩

theorem of_works (h : s.Sound) (hw : s.Works t) : t.Sound := by
  cases hw with
  | empty => exact h
  | top hf => exact h.replace_top ((h.frames _ List.mem_cons_self).of_works hf)

theorem push (h : s.Sound) (hf : f.Sound) (room : s.length < callDepthLimit) : Sound (f :: s) :=
  ⟨Nat.le_add_left .., room, List.forall_mem_cons.mpr ⟨hf, h.frames⟩⟩

theorem drop_above (above : CallStack) (h : Sound (above ++ f :: s)) : Sound (f :: s) := by
  have hd := h.depth
  rw [List.length_append] at hd
  refine ⟨Nat.le_add_left .., by omega, fun g hg => h.frames g ?_⟩
  exact List.mem_append_right above hg

end CallStack.Sound

structure Snapshot.Sound (size : Nat) (p : Snapshot) : Prop where
  frames : p.frames.Sound
  memory : p.memory.size ≤ size

namespace Core

theorem mainFrame_sound {m : Memory} {f : Frame} (h : mainFrame m = .ok f) : f.Sound := by
  unfold mainFrame at h
  split at h
  · cases h
    exact ⟨Nat.zero_le _, (by decide : (0 : UInt8) ≤ 15), (by decide : (0 : UInt8) ≤ 7)⟩
  · obtain ⟨b, _, h⟩ := ok_of_bind_except h
    cases h
    refine ⟨Nat.zero_le _, ?_, (by decide : (0 : UInt8) ≤ 7)⟩
    exact Std.min_le_right

theorem mainFrame_restored {m : Memory} {f : Frame} (flags : UInt16) (h : mainFrame m = .ok f) :
    ∃ g, mainFrame (restored m flags) = .ok g := by
  unfold mainFrame at h ⊢
  unfold restored
  rw [Memory.version_setFlags2, Memory.initialPc_setFlags2, Memory.unpackRoutine_setFlags2]
  split at h
  · next early => exact ⟨_, if_pos early⟩
  · next late =>
    obtain ⟨b, hb, -⟩ := ok_of_bind_except h
    obtain ⟨b', hb'⟩ := Memory.byte_of_sameSize (n := restored m flags) (by
      exact Memory.size_setHeaderWord ..) hb
    unfold restored at hb'
    rw [if_neg late]
    dsimp only
    rw [hb']
    exact ⟨_, rfl⟩

end Core

namespace Machine

theorem routineFrame_sound {version : UInt8} {a : Nat} {args : List UInt16} {store : Option UInt8}
    {m : Memory} {f : Frame} (h : routineFrame version a args store m = .ok f)
    (few : args.length ≤ 7) : f.Sound := by
  obtain ⟨n, initial, _, hn, rfl⟩ := routineFrame_ok h
  refine ⟨Nat.zero_le _, hn, ?_⟩
  have hl : (UInt8.ofNat args.length).toNat = args.length :=
    UInt8.toNat_ofNat_of_lt (Nat.lt_of_le_of_lt few (by decide))
  exact UInt8.le_iff_toNat_le.mpr (Nat.le_trans (Nat.le_of_eq hl) few)

theorem resolveOperands_length {η : Type} {os : List Operand} {s t : Machine η}
    {operands : List UInt16} (h : resolveOperands os s = .ok operands t) :
    operands.length = os.length := by
  induction os generalizing s t operands with
  | nil =>
    cases h
    rfl
  | cons o rest ih =>
    obtain ⟨v, _, _, h⟩ := ok_of_bind_ok h
    obtain ⟨vs, _, hr, h⟩ := ok_of_bind_ok h
    cases h
    rw [List.length_cons, List.length_cons, ih hr]

/-- The bounds of a machine on a story image. -/
structure Sound {η : Type} (image : Array UInt8) (s : Machine η) : Prop where
  frames : s.core.frames.Sound
  tables : s.streams.tables.length ≤ 16
  undo : s.undo.length ≤ 10
  snapshots : ∀ p ∈ s.undo, p.Sound image.size
  size : s.core.memory.bytes.size = image.size
  pristine : s.core.pristine.bytes = image
  /-- The image has a main routine to start again with. -/
  main : ∃ f, Core.mainFrame s.core.pristine = .ok f

variable {η : Type} {image : Array UInt8} {s t : Machine η}

namespace Sound

theorem of_quiet (h : Sound image s) (q : Quiet s t) : Sound image t where
  frames := h.frames.of_works q.core.frames
  tables := q.tables h.tables
  undo := q.undo ▸ h.undo
  snapshots := q.undo ▸ h.snapshots
  size := q.core.size.trans h.size
  pristine := q.core.pristine ▸ h.pristine
  main := q.core.pristine ▸ h.main

theorem withFrames {frames : CallStack} (h : Sound image s) (hf : frames.Sound) :
    Sound image (s.withFrames frames) :=
  ⟨hf, h.tables, h.undo, h.snapshots, h.size, h.pristine, h.main⟩

theorem fetched (h : Sound image s) (next : Nat) : Sound image (s.fetched next) := by
  have hf := h.frames
  cases hs : s.core.frames with
  | nil =>
    rw [hs] at hf
    exact absurd hf.nonempty (by decide)
  | cons f rest =>
    rw [hs] at hf
    rw [fetched_of_frames next hs]
    exact ⟨hf.replace_top ((hf.frames f List.mem_cons_self).of_pc next), h.tables, h.undo,
      h.snapshots, h.size, h.pristine, h.main⟩

theorem deliver {store : Option UInt8} {v : UInt16} (h : Sound image s) :
    Sound image (ending (deliver store v s)) :=
  h.of_quiet (Leads.bind storeTo_quiet (fun _ => .pure _) s)

theorem of_ends {i : Instruction} {operands : List UInt16}
    {r : EStateM.Result Fault (Machine η) Outcome} (h : Sound image s) (he : Ends i operands s r) :
    Sound image (ending r) := by
  cases he with
  | stays q _ => exact h.of_quiet q
  | @jumps t f rest offset q top _ =>
    have ht := h.of_quiet q
    have hf := ht.frames
    rw [top] at hf
    exact ht.withFrames (hf.replace_top (hf.frames f List.mem_cons_self |>.of_pc _))
  | @returns t f g rest v q frames _ =>
    have ht := h.of_quiet q
    have hf := ht.frames
    rw [frames] at hf
    exact (ht.withFrames (hf.drop_above [f])).deliver

theorem snapshot (h : Sound image s) (store : Option UInt8) :
    (s.snapshot store).Sound image.size := by
  refine ⟨h.frames, ?_⟩
  rw [← h.size]
  exact Array.size_extract_le'

theorem keep (h : Sound image s) {p : Snapshot} (hp : p.Sound image.size) :
    Sound image { s with undo := (p :: s.undo).take undoLimit } := by
  refine ⟨h.frames, h.tables, List.length_take_le .., fun q hq => ?_, h.size, h.pristine, h.main⟩
  cases List.mem_of_mem_take hq with
  | head => exact hp
  | tail _ hq => exact h.snapshots q hq

theorem forget {newest : Snapshot} {older : List Snapshot} (h : Sound image s)
    (hu : s.undo = newest :: older) :
    newest.Sound image.size ∧ Sound image { s with undo := older } := by
  have hl := h.undo
  have hs := h.snapshots
  rw [hu] at hl hs
  obtain ⟨hn, ho⟩ := List.forall_mem_cons.mp hs
  rw [List.length_cons] at hl
  exact ⟨hn, h.frames, h.tables, Nat.le_of_succ_le hl, ho, h.size, h.pristine, h.main⟩

theorem revert_kept {p : Snapshot} (hp : p.Sound image.size) :
    Leads (Kept (Sound image)) (revert p : Action (Machine η) Unit) := by
  refine .bind ((onMemory_quiet Memory.copyFrom_sameSize).kept of_quiet) fun _ => ?_
  exact .bind (fun s hs => hs.withFrames hp.frames) fun _ => storeTo_quiet.kept of_quiet

theorem reset_kept : Leads (Kept (Sound image)) (onCore Core.reset : Action (Machine η) Unit) := by
  intro s hs
  obtain ⟨f, hf⟩ := hs.main
  obtain ⟨g, hg⟩ := Core.mainFrame_restored s.core.memory.flags2 hf
  have hr : Core.reset s.core =
      .ok () ⟨Core.restored s.core.pristine s.core.memory.flags2, s.core.pristine, [g]⟩ := by
    simp only [Core.reset, hg]
  rw [onCore_ok hr]
  have hsize : (Core.restored s.core.pristine s.core.memory.flags2).bytes.size = image.size := by
    rw [Core.restored, Memory.setFlags2, Memory.size_setHeaderWord, hs.pristine]
  refine ⟨⟨Nat.le_refl 1, (by decide : 1 ≤ 1024), ?_⟩, hs.tables, hs.undo, hs.snapshots, hsize, hs.pristine,
    hs.main⟩
  exact List.forall_mem_singleton.mpr (Core.mainFrame_sound hg)

theorem restart_kept [Host η] :
    Leads (Kept (Sound image)) (restart : Action (Machine η) Unit) := by
  refine .bind reset_kept fun _ => .bind (.modify fun s hs => ?_) fun _ s hs => ?_
  · exact ⟨hs.frames, Nat.zero_le _, Nat.zero_le _, List.forall_mem_nil _, hs.size, hs.pristine,
      hs.main⟩
  · exact ⟨hs.frames, hs.tables, hs.undo, hs.snapshots,
      (publish_sameSize ..).trans hs.size, hs.pristine, hs.main⟩

theorem of_effect [Host η] {i : Instruction} {operands : List UInt16}
    {r : EStateM.Result Fault (Machine η) Outcome} (h : Sound image s)
    (few : operands.length ≤ 8) (he : Effect i operands s r) : Sound image (ending r) := by
  have hf := h.frames
  cases he with
  | ends he => exact h.of_ends he
  | calls _ _ routine room =>
    have args : operands.tail.length ≤ 7 := by rw [List.length_tail]; omega
    exact h.withFrames (hf.push (routineFrame_sound routine args) room)
  | @unwinds above rest f g _ frames _ =>
    rw [frames] at hf
    exact (h.withFrames ((hf.drop_above above).drop_above [f])).deliver
  | @strands above f _ frames =>
    rw [frames] at hf
    exact h.withFrames (hf.drop_above above)
  | saves => exact (h.keep (h.snapshot i.store)).of_quiet (Leads.bind storeTo_quiet (fun _ => .pure _) _)
  | restarts => exact Leads.bind restart_kept (fun _ => .pure _) s h
  | reverts _ undo =>
    obtain ⟨hp, ho⟩ := h.forget undo
    exact Leads.bind (revert_kept hp) (fun _ => .pure _) _ ho

end Sound

theorem upcoming_operands_length {i : Instruction} (h : s.upcoming = .ok i) :
    i.operands.length ≤ 8 := by
  obtain ⟨pc, -, hi⟩ := pc_of_upcoming h
  exact Memory.instruction_operands_length hi

variable [Host η]

theorem execute_sound {i : Instruction} (h : Sound image s) (few : i.operands.length ≤ 8) :
    Sound image (ending (execute i s)) := by
  obtain ⟨e, t, hr, he⟩ | ⟨operands, t, hr, he⟩ := execute_cases i s
  · rw [he]
    exact h.of_quiet (resolveOperands_quiet.of_error hr)
  · have ht := h.of_quiet (resolveOperands_quiet.of_ok hr)
    exact ht.of_effect (by rw [resolveOperands_length hr]; exact few) he

theorem after_sound (h : Sound image s) : Sound image s.after := by
  unfold after
  cases hu : s.upcoming with
  | error e =>
    obtain ⟨f, hs⟩ := step_of_no_upcoming hu
    rw [hs]
    exact h
  | ok i =>
    have hx := execute_sound (h.fetched i.next) (upcoming_operands_length hu)
    cases hr : execute i (s.fetched i.next) with
    | error e t =>
      rw [hr] at hx
      rw [step_of_error hu hr]
      exact hx
    | ok o t =>
      rw [hr] at hx
      by_cases ho : o = .quit
      · subst ho
        rw [step_of_quit hu hr]
        exact ⟨hx.frames, hx.tables, hx.undo, hx.snapshots, hx.size, hx.pristine, hx.main⟩
      · rw [step_of_ok hu hr ho]
        exact hx

theorem boot_sound {host : η} (h : boot image host = .ok s) : Sound image s := by
  obtain ⟨m, hm, h⟩ := ok_of_bind_except h
  obtain ⟨c, hc, h⟩ := ok_of_bind_except h
  obtain ⟨f, hf, hc⟩ := ok_of_bind_except hc
  cases h
  cases hc
  have hb : m.bytes = image := Memory.load_bytes hm
  refine ⟨⟨Nat.le_refl 1, (by decide : 1 ≤ 1024), ?_⟩, Nat.zero_le _, Nat.zero_le _,
    List.forall_mem_nil _, ?_, hb, f, hf⟩
  · exact List.forall_mem_singleton.mpr (Core.mainFrame_sound hf)
  · exact (publish_sameSize ..).trans (congrArg Array.size hb)

theorem Reachable.sound (h : Reachable image s) : Sound image s := by
  induction h with
  | boot h => exact boot_sound h
  | step _ ih => exact after_sound ih

/-- The bounds of every reachable machine. -/
theorem reachable_bounds (h : Reachable image s) :
    1 ≤ s.core.depth ∧ s.core.depth ≤ 1024 ∧ (∀ f ∈ s.core.frames, f.Sound) ∧
      s.streams.tables.length ≤ 16 ∧ s.undo.length ≤ 10 ∧
      (∀ p ∈ s.undo, p.frames ≠ [] ∧ p.frames.length ≤ 1024 ∧ (∀ f ∈ p.frames, f.Sound) ∧
        p.memory.size ≤ image.size) ∧
      s.core.memory.size = image.size ∧ s.core.pristine.bytes = image := by
  have hs := h.sound
  refine ⟨hs.frames.nonempty, hs.frames.depth, hs.frames.frames, hs.tables, hs.undo, ?_, hs.size,
    hs.pristine⟩
  intro p hp
  have hframes := (hs.snapshots p hp).frames
  refine ⟨?_, hframes.depth, hframes.frames, (hs.snapshots p hp).memory⟩
  exact List.ne_nil_of_length_pos hframes.nonempty

theorem reachable_bounds_nested :
    nestedMachine.after.after.core.depth = 3 ∧
      ∀ f ∈ nestedMachine.after.after.core.frames, f.Sound :=
  ⟨rfl, (reachable_bounds (.step (.step (.boot boot_nestedStory)))).2.2.1⟩

end Machine

end ZMachine
