import ZMachine.Proofs.Instruction.Locality
import ZMachine.Proofs.Machine.ControlFlow
import ZMachine.Proofs.Machine.Restart

namespace ZMachine.Machine

variable {η : Type} {image : Array UInt8} {i : Instruction} {operands : List UInt16}
  {s t : Machine η} {fault : Fault} {pc : Nat}

def SameTally (s t : Machine η) : Prop := t.count = s.count ∧ t.quit = s.quit

instance : IsPreorder (Machine η) SameTally where
  refl _ := ⟨rfl, rfl⟩
  trans _ _ _ h h' := ⟨h'.1.trans h.1, h'.2.trans h.2⟩

theorem deliver_error {store : Option UInt8} {v : UInt16} (h : deliver store v s = .error fault t) :
    store ≠ none ∧ t.core.depth = s.core.depth := by
  have quiet : Quiet s t := (deliver_leads (fun _ _ q => q) store v).of_error h
  refine ⟨?_, quiet.core.frames.length_eq⟩
  rintro rfl
  cases h

theorem depth_of_returnValue_error {v : UInt16} {f : Frame} {rest : CallStack}
    (h : returnValue v (s.withFrames (f :: rest)) = .error fault t) :
    t.core.depth = max 1 rest.length := by
  cases rest with
  | nil =>
    have hone : (s.withFrames [f]).core.frames.length ≤ 1 := Nat.le_refl 1
    rw [returnValue_of_main v hone] at h
    cases h
    rfl
  | cons g rest =>
    rw [returnValue_of_frames v rfl] at h
    rw [(deliver_error h).2]
    simp [withFrames, Core.depth]

theorem revert_error {p : Snapshot} (h : revert p s = .error fault t) :
    t.core.depth = s.core.depth ∨ p.store ≠ none ∧ t.core.depth = p.frames.length := by
  unfold revert at h
  cases hcopy : onMemory (Memory.copyFrom p.memory) s with
  | error e u =>
    rw [bind_error _ hcopy] at h
    cases h
    exact .inl ((onMemory_quiet Memory.copyFrom_sameSize).of_error hcopy).core.frames.length_eq
  | ok _ u =>
    rw [bind_ok _ hcopy] at h
    have hstore : storeTo p.store 2 (u.withFrames p.frames) = .error fault t := h
    refine .inr ⟨?_, (storeTo_quiet.of_error hstore).core.frames.length_eq⟩
    intro hnone
    rw [hnone] at hstore
    cases hstore

/-- How deep an instruction may be when it fails after it has left the frame that it was fetched in. -/
inductive FailsOutside (i : Instruction) (operands : List UInt16) (s : Machine η) : Nat → Prop
  | returning {v : UInt16} {f g : Frame} {rest : CallStack} (returns : i.mnemonic ≠ .throwFrame)
    (exits : i.Exits operands v) (frames : s.core.frames = f :: g :: rest)
    (stores : f.storeTo ≠ none) : FailsOutside i operands s (rest.length + 1)
  | throwing {caller : Nat} (throws : i.mnemonic = .throwFrame)
    (target : (operands.getD 1 0).toNat = caller + 1) (known : caller + 1 ≤ s.core.depth) :
    FailsOutside i operands s (max 1 caller)
  | undoing {newest : Snapshot} {older : List Snapshot} (back : i.mnemonic = .restoreUndo)
    (undo : s.undo = newest :: older) (stores : newest.store ≠ none) :
    FailsOutside i operands s newest.frames.length

theorem FailsOutside.of_resolved {s' : Machine η} {depth : Nat} (h : FailsOutside i operands s' depth)
    (hu : s.upcoming = .ok i) (hr : resolveOperands i.operands (s.fetched i.next) = .ok operands s') :
    FailsOutside i operands s depth := by
  obtain ⟨f, g, hs, hs', hfg⟩ := frames_of_resolved hu hr
  cases h with
  | returning returns exits frames stores =>
    rw [hs'] at frames
    obtain ⟨rfl, htail⟩ := List.cons.inj frames
    rw [htail] at hs
    exact .returning returns exits hs (by rwa [← hfg.storeTo])
  | throwing throws target known =>
    have hdepth : s'.core.depth = s.core.depth := by
      rw [Core.depth, Core.depth, hs, hs']
      rfl
    exact .throwing throws target (hdepth ▸ known)
  | undoing back undo stores =>
    rw [(resolveOperands_quiet.of_ok hr).undo] at undo
    exact .undoing back undo stores

theorem depth_fetched (hpc : s.core.pc = .ok pc) (next : Nat) :
    (s.fetched next).core.depth = s.core.depth := by
  cases hf : s.core.frames with
  | nil =>
    rw [Core.pc, hf] at hpc
    cases hpc
  | cons f rest =>
    rw [fetched_of_frames next hf, Core.depth, Core.depth, hf]
    rfl

variable [Host η]

theorem restart_sameTally : Leads SameTally (restart : Action (Machine η) Unit) := by
  refine .bind (fun s => ?_) fun _ => .bind (fun s => ⟨rfl, rfl⟩) fun _ s => ⟨rfl, rfl⟩
  unfold onCore
  dsimp only
  cases Core.reset s.core <;> exact ⟨rfl, rfl⟩

theorem execute_sameTally : Leads SameTally (execute i : Action (Machine η) Outcome) :=
  execute_leads (fun _ _ q => ⟨q.count, q.quit⟩) (fun _ _ => ⟨rfl, rfl⟩) (fun _ _ => ⟨rfl, rfl⟩)
    restart_sameTally

theorem step_error_cases (h : Reachable image s) {e : Failure} (hs : step s = .error e t) :
    ∃ pc, s.core.pc = .ok pc ∧
      ((∃ fault, s.core.memory.instruction s.version pc = .error fault ∧
          e = .during (s.undecoded pc) (.plain fault) ∧ t = s) ∨
        ∃ i fault, s.core.memory.instruction s.version pc = .ok i ∧ s.upcoming = .ok i ∧
          execute i (s.fetched i.next) = .error fault t ∧ e = .during (t.site i) (.plain fault)) := by
  obtain ⟨f, rest, hf⟩ := List.exists_cons_of_length_pos h.sound.frames.nonempty
  have hpc := pc_of_frames hf
  refine ⟨f.pc, hpc, ?_⟩
  cases hi : s.core.memory.instruction s.version f.pc with
  | error fault =>
    simp only [step, hpc, hi] at hs
    cases hs
    exact .inl ⟨fault, rfl, rfl, rfl⟩
  | ok i =>
    have hu : s.upcoming = .ok i := by
      rw [upcoming, hpc]
      exact hi
    cases hx : execute i (s.fetched i.next) with
    | error fault u =>
      rw [step_of_error hu hx] at hs
      cases hs
      exact .inr ⟨i, fault, rfl, hu, hx, rfl⟩
    | ok o u =>
      by_cases ho : o = .quit
      · subst ho
        rw [step_of_quit hu hx] at hs
        cases hs
      · rw [step_of_ok hu hx ho] at hs
        cases hs

/-- A failed step names the instruction that it fetched, and its failure is wrapped once. If there is no
instruction, nothing has changed; else it has been counted. Neither ends the story. -/
theorem failed_step_names_instruction (h : Reachable image s) {e : Failure} (hs : step s = .error e t) :
    ∃ pc site fault, s.core.pc = .ok pc ∧ e = .during site (.plain fault) ∧ site.pc = pc ∧
      t.quit = s.quit ∧
      ((s.core.memory.instruction s.version pc = .error fault ∧ site.name = "decode" ∧
          site.operands = [] ∧ t = s) ∨
        ∃ i, s.core.memory.instruction s.version pc = .ok i ∧
          execute i (s.fetched i.next) = .error fault t ∧ site.opcode = i.descriptor.raw ∧
          site.name = i.mnemonic.name ∧ site.operands = i.rawOperands ∧ t.count = s.count + 1) := by
  obtain ⟨pc, hpc, ⟨fault, hi, rfl, rfl⟩ | ⟨i, fault, hi, -, hx, rfl⟩⟩ := step_error_cases h hs
  · exact ⟨pc, _, fault, hpc, rfl, rfl, rfl, .inl ⟨hi, rfl, rfl, rfl⟩⟩
  · obtain ⟨hcount, hquit⟩ := execute_sameTally.of_error hx
    have haddress := (Memory.fetch_of_instruction hi).2
    exact ⟨pc, _, fault, hpc, rfl, haddress, hquit, .inr ⟨i, hi, hx, rfl, rfl, rfl, hcount⟩⟩

def unstoredStory : Array UInt8 :=
  -- A routine that returns its result to a global variable, where there are no globals.
  #[5, 0, 0, 0, 0, 0, 0, 0x40, 0, 0, 0, 0, 0xFF, 0xFF] ++ Array.replicate 50 0 ++
    #[0x88, 0, 0x12, 0x10, 0xBA, 0, 0, 0, 0, 0xB0]

def unstoredMachine : Machine Playback :=
  let memory : Memory := ⟨unstoredStory, by decide, by decide⟩
  start ⟨memory, memory, [{ pc := 0x40 }]⟩ {}

theorem boot_unstoredStory : boot unstoredStory ({} : Playback) = .ok unstoredMachine := rfl

theorem failed_step_names_instruction_unstored :
    ∃ e t i, step unstoredMachine.after = .error e t ∧
      unstoredMachine.after.core.memory.instruction 5 0x49 = .ok i ∧
      (∃ site fault, e = .during site (.plain fault) ∧ site.pc = 0x49 ∧
        site.name = i.mnemonic.name ∧ site.operands = i.rawOperands) ∧
      i.mnemonic.name = "rtrue" ∧ t.count = 2 := by
  have fails : step unstoredMachine.after = .error _ unstoredMachine.after.after := rfl
  obtain ⟨pc, site, fault, hpc, he, hsite, -, hcases⟩ :=
    failed_step_names_instruction (.step (.boot boot_unstoredStory)) fails
  cases hpc
  obtain ⟨hdecode, -⟩ | ⟨i, hi, -, -, hname, hoperands, hcount⟩ := hcases
  · cases hdecode
  · refine ⟨_, _, i, fails, hi, ⟨site, fault, he, hsite, hname, hoperands⟩, ?_, hcount⟩
    cases hi
    rfl

theorem execute_throw_error (hi : i.mnemonic = .throwFrame) (hb : i.branch = none)
    (hr : resolveOperands i.operands s = .ok operands t) {u : Machine η}
    (h : execute i s = .error fault u) :
    u.core.depth = t.core.depth ∨ FailsOutside i operands t u.core.depth := by
  by_cases old : i.descriptor.minVersion ≤ t.version
  · rw [execute_throw_eq hi old hr] at h
    obtain ⟨e, hu⟩ | ⟨above, f, rest, hs, hd, hu⟩ :=
      CallStack.unwindTo_cases (operands.getD 1 0).toNat t.core.frames
    · rw [bind_error _ (onCore_error (Core.onFrames_error hu))] at h
      cases h
      exact .inl rfl
    · rw [bind_ok _ (onCore_ok (Core.onFrames_ok hu))] at h
      have hfails : returnValue (operands.getD 0 0) (t.withFrames (f :: rest)) = .error fault u := h
      have hle : rest.length + 1 ≤ t.core.depth := by simp [Core.depth, hs]
      rw [depth_of_returnValue_error hfails]
      exact .inr (.throwing hi hd.symm hle)
  · rw [execute_of_new hr old, passOver_eq hb] at h
    have quiet : Quiet t u := (Leads.bind storeTo_quiet fun _ => .pure _).of_error h
    exact .inl quiet.core.frames.length_eq

theorem Effect.depth_of_error (he : Effect i operands s (.error fault t))
    (hrestart : i.mnemonic ≠ .restart) (hthrow : i.mnemonic ≠ .throwFrame) :
    t.core.depth = s.core.depth ∨ FailsOutside i operands s t.core.depth := by
  generalize hres : (EStateM.Result.error fault t : EStateM.Result Fault (Machine η) Outcome) = r at he
  cases he with
  | ends he =>
    cases he with
    | stays q _ =>
      subst hres
      exact .inl q.core.frames.length_eq
    | jumps => cases hres
    | returns q frames exits =>
      obtain ⟨hstores, hdepth⟩ := deliver_error hres.symm
      have hw := q.core.frames
      rw [frames] at hw
      generalize hs : s.core.frames = before at hw
      cases hw with
      | top hfg =>
        rw [hdepth]
        exact .inr (.returning hthrow exits hs (by rwa [← hfg.storeTo]))
  | calls => cases hres
  | unwinds throws => exact absurd throws hthrow
  | strands throws => exact absurd throws hthrow
  | saves =>
    have quiet := (Leads.bind storeTo_quiet fun _ => .pure _).of_error hres.symm
    exact .inl quiet.core.frames.length_eq
  | restarts again => exact absurd again hrestart
  | @reverts newest older back undo =>
    cases hback : revert newest { s with undo := older } with
    | ok a u =>
      rw [bind_ok _ hback] at hres
      cases hres
    | error e u =>
      rw [bind_error _ hback] at hres
      cases hres
      obtain hsame | ⟨hstores, hdepth⟩ := revert_error hback
      · exact .inl hsame
      · rw [hdepth]
        exact .inr (.undoing back undo hstores)

/-- The depth that a failed step reports is the one at which the instruction was fetched, unless the
instruction had already left its frame. -/
theorem reported_depth (h : Reachable image s) {site : Site} {source : Failure}
    (hs : step s = .error (.during site source) t) :
    site.depth = s.core.depth ∨
      ∃ i operands s', s.upcoming = .ok i ∧
        resolveOperands i.operands (s.fetched i.next) = .ok operands s' ∧
        FailsOutside i operands s site.depth := by
  obtain ⟨pc, hpc, ⟨fault, hi, he, rfl⟩ | ⟨i, fault, hi, hu, hx, he⟩⟩ := step_error_cases h hs
  · cases he
    exact .inl rfl
  · cases he
    have hrestart : i.mnemonic ≠ .restart := by
      intro again
      obtain ⟨main, -, hok⟩ := step_restart h hu again
      rw [hs] at hok
      cases hok
    have hcases := execute_cases i (s.fetched i.next)
    rw [hx] at hcases
    obtain ⟨_, _, hr, ⟨⟩⟩ | ⟨operands, s', hr, heffect⟩ := hcases
    · have quiet := resolveOperands_quiet.of_error hr
      exact .inl (quiet.core.frames.length_eq.trans (depth_fetched hpc _))
    · have hsame := (resolveOperands_quiet.of_ok hr).core.frames.length_eq.trans (depth_fetched hpc _)
      have hdepth : t.core.depth = s'.core.depth ∨ FailsOutside i operands s' t.core.depth := by
        by_cases hthrow : i.mnemonic = .throwFrame
        · exact execute_throw_error hthrow (Memory.branch_of_throw hi hthrow) hr hx
        · exact heffect.depth_of_error hrestart hthrow
      obtain hdepth | houtside := hdepth
      · exact .inl (hdepth.trans hsame)
      · exact .inr ⟨i, operands, s', hu, hr, houtside.of_resolved hu hr⟩

def strandingStory : Array UInt8 :=
  -- A main routine that calls a routine that calls another, which throws back to the main routine.
  #[5, 0, 0, 0, 0, 0, 0, 0x40] ++ Array.replicate 56 0 ++
    #[0xE0, 0x3F, 0, 0x12, 0, 0xBA, 0, 0, 0, 0xE0, 0x3F, 0, 0x14, 0, 0, 0, 0, 0x1C, 7, 1]

def strandingMachine : Machine Playback :=
  let memory : Memory := ⟨strandingStory, by decide, by decide⟩
  start ⟨memory, memory, [{ pc := 0x40 }]⟩ {}

theorem boot_strandingStory : boot strandingStory ({} : Playback) = .ok strandingMachine := rfl

theorem reported_depth_stranding :
    strandingMachine.after.after.core.depth = 3 ∧
      ∃ site source i operands,
        step strandingMachine.after.after =
          .error (.during site source) strandingMachine.after.after.after ∧ site.depth = 1 ∧
        strandingMachine.after.after.upcoming = .ok i ∧
        FailsOutside i operands strandingMachine.after.after site.depth := by
  obtain ⟨site, source, fails, hdepth⟩ : ∃ site source,
      step strandingMachine.after.after =
        .error (.during site source) strandingMachine.after.after.after ∧ site.depth = 1 :=
    ⟨_, _, rfl, rfl⟩
  obtain hsame | ⟨i, operands, s', hu, -, houtside⟩ :=
    reported_depth (.step (.step (.boot boot_strandingStory))) fails
  · rw [hdepth] at hsame
    cases hsame
  · exact ⟨rfl, site, source, i, operands, fails, hdepth, hu, houtside⟩

theorem reported_depth_unstored :
    Reachable unstoredStory unstoredMachine.after ∧ unstoredMachine.after.core.depth = 2 ∧
      ∃ site source t, step unstoredMachine.after = .error (.during site source) t ∧
        site.name = "rtrue" ∧ site.depth = 1 :=
  ⟨.step (.boot boot_unstoredStory), rfl, _, _, _, rfl, rfl, rfl⟩

end ZMachine.Machine
