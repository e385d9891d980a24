import ZMachine.Proofs.Machine.Families
import ZMachine.Run
import ZMachine.Session

namespace ZMachine.Machine

variable {η : Type}

def upcoming (s : Machine η) : Except Fault Instruction := do
  s.core.memory.instruction s.version (← s.core.pc)

theorem pc_of_upcoming {s : Machine η} {i : Instruction} (h : s.upcoming = .ok i) :
    ∃ pc, s.core.pc = .ok pc ∧ s.core.memory.instruction s.version pc = .ok i :=
  ok_of_bind_except h

theorem fetched_of_frames {s : Machine η} {f : Frame} {rest : CallStack} (next : Nat)
    (h : s.core.frames = f :: rest) :
    s.fetched next =
      { s.withFrames ({ f with pc := next } :: rest) with count := s.count + 1 } := by
  unfold fetched
  simp only [h]
  rfl

theorem frames_of_resolved {s s' : Machine η} {i : Instruction} {operands : List UInt16}
    (h : s.upcoming = .ok i) (hr : resolveOperands i.operands (s.fetched i.next) = .ok operands s') :
    ∃ f g : Frame, s.core.frames = f :: s.core.frames.tail ∧
      s'.core.frames = g :: s.core.frames.tail ∧ Frame.Works { f with pc := i.next } g := by
  obtain ⟨pc, hp, -⟩ := pc_of_upcoming h
  cases hf : s.core.frames with
  | nil =>
    rw [Core.pc, hf] at hp
    cases hp
  | cons f rest =>
    have hw := (resolveOperands_quiet.of_ok hr).core.frames
    rw [fetched_of_frames i.next hf] at hw
    cases hs : s'.core.frames with
    | nil =>
      rw [hs] at hw
      cases hw
    | cons g rest' =>
      rw [hs] at hw
      cases hw with
      | top h => exact ⟨f, g, rfl, rfl, h⟩

variable [Host η]

section Execution

variable {s t : Machine η} {i : Instruction}

theorem step_of_error {e : Fault} (h : s.upcoming = .ok i)
    (hx : execute i (s.fetched i.next) = .error e t) :
    step s = .error (.during (t.site i) (.plain e)) t := by
  obtain ⟨pc, hp, hi⟩ := pc_of_upcoming h
  simp only [step, hp, hi, hx]

theorem step_of_quit (h : s.upcoming = .ok i) (hx : execute i (s.fetched i.next) = .ok .quit t) :
    step s = .ok .quit { t with quit := true } := by
  obtain ⟨pc, hp, hi⟩ := pc_of_upcoming h
  simp only [step, hp, hi, hx]

theorem step_of_ok {o : Outcome} (h : s.upcoming = .ok i)
    (hx : execute i (s.fetched i.next) = .ok o t) (ho : o ≠ .quit) : step s = .ok o t := by
  obtain ⟨pc, hp, hi⟩ := pc_of_upcoming h
  simp only [step, hp, hi, hx]

theorem step_of_no_upcoming {e : Fault} (h : s.upcoming = .error e) :
    ∃ f, step s = .error f s := by
  unfold upcoming at h
  cases hp : s.core.pc with
  | error e =>
    simp only [step, hp]
    exact ⟨_, rfl⟩
  | ok pc =>
    rw [hp] at h
    change s.core.memory.instruction s.version pc = .error e at h
    simp only [step, hp, h]
    exact ⟨_, rfl⟩

theorem execute_of_step {o : Outcome} (h : s.upcoming = .ok i) (hs : step s = .ok o t) :
    ∃ t', execute i (s.fetched i.next) = .ok o t' ∧ t'.core = t.core := by
  cases hr : execute i (s.fetched i.next) with
  | error e t' =>
    rw [step_of_error h hr] at hs
    cases hs
  | ok o' t' =>
    by_cases ho : o' = .quit
    · subst ho
      rw [step_of_quit h hr] at hs
      cases hs
      exact ⟨t', rfl, rfl⟩
    · rw [step_of_ok h hr ho] at hs
      cases hs
      exact ⟨_, rfl, rfl⟩

end Execution

def after (s : Machine η) : Machine η := ending (step s)

theorem after_of_no_upcoming {s : Machine η} {e : Fault} (h : s.upcoming = .error e) :
    s.after = s := by
  obtain ⟨f, hs⟩ := step_of_no_upcoming h
  rw [after, hs]
  rfl

theorem after_of_upcoming {s : Machine η} {i : Instruction} (h : s.upcoming = .ok i) :
    ∃ quit, s.after = { ending (execute i (s.fetched i.next)) with quit } := by
  unfold after
  cases hx : execute i (s.fetched i.next) with
  | error e t =>
    rw [step_of_error h hx]
    exact ⟨t.quit, rfl⟩
  | ok o t =>
    by_cases ho : o = .quit
    · subst ho
      rw [step_of_quit h hx]
      exact ⟨true, rfl⟩
    · rw [step_of_ok h hx ho]
      exact ⟨t.quit, rfl⟩

/-- The machines that steps lead to from the start of a story. -/
inductive Reachable (image : Array UInt8) : Machine η → Prop
  | boot {host : η} {s : Machine η} (h : boot image host = .ok s) : Reachable image s
  | step {s : Machine η} (h : Reachable image s) : Reachable image s.after

def nestedStory : Array UInt8 :=
  -- A main routine that calls a routine, which calls another; both push what they get.
  #[3, 0, 0, 0, 0, 0, 0, 0x40] ++ Array.replicate 56 0 ++
    #[0xE0, 0x3F, 0, 0x24, 0, 0xBA, 0, 0, 0, 0xE0, 0x3F, 0, 0x28, 0, 0xB8, 0, 0, 0xB0]

def nestedMachine : Machine Playback :=
  let memory : Memory := ⟨nestedStory, by decide, by decide⟩
  start ⟨memory, memory, [{ pc := 0x40 }]⟩ {}

theorem boot_nestedStory : boot nestedStory ({} : Playback) = .ok nestedMachine := rfl

end ZMachine.Machine
