import Mathlib.Logic.Function.Iterate
import ZMachine.Proofs.Checked.Execute

namespace ZMachine

variable {η : Type} {n : Nat} {s : Machine η}

theorem Machine.Fits.pc_lt {pc : Nat} (h : s.Fits n) (hp : s.core.pc = .ok pc) : pc < 2 ^ 32 := by
  have hf := h.core.frames
  unfold Core.pc at hp
  cases hs : s.core.frames with
  | nil =>
    rw [hs] at hp
    cases hp
  | cons f rest =>
    rw [hs] at hp hf
    cases hp
    exact hf f List.mem_cons_self

theorem Machine.Fits.fetched {next : Nat} (h : s.Fits n) (hn : next < 2 ^ 32) :
    (s.fetched next).Fits (n + 1) := by
  have hf := h.core.frames
  have hc : s.count + 1 ≤ n + 1 := Nat.succ_le_succ h.count
  unfold Machine.fetched
  refine ⟨⟨?_, h.core.size⟩, h.undo, h.tables, hc⟩
  dsimp only
  cases hs : s.core.frames with
  | nil => exact List.forall_mem_nil _
  | cons f rest =>
    rw [hs] at hf
    exact List.forall_mem_cons.mpr ⟨hn, (List.forall_mem_cons.mp hf).2⟩

namespace Checked

def Trap.map {ε δ : Type} (f : ε → δ) : Trap ε → Trap δ
  | .fault e => .fault (f e)
  | .overflow => .overflow
  | .outOfBounds => .outOfBounds

def shownByte (m : Memory) (a : Nat) : Calc UInt8 :=
  match byte m a with
  | .error (.fault _) => .ok 0
  | r => r

def undecoded (s : Machine η) (pc : Nat) : Calc Site := do
  let opcode ← shownByte s.core.memory pc
  return { s.undecoded pc with opcode }

def step [Host η] : EStateM (Trap Failure) (Machine η) Outcome := fun s =>
  match s.core.pc with
  | .error e => .error (.fault (.plain e)) s
  | .ok pc =>
    match instruction s.core.memory s.version pc with
    | .error cause =>
      match undecoded s pc with
      | .error e => .error (e.map .plain) s
      | .ok site => .error (cause.map (.during site ∘ .plain)) s
    | .ok i =>
      match add 64 s.count 1 with
      | .error e => .error (e.map .plain) s
      | .ok count =>
        match execute i { s.fetched i.next with count } with
        | .ok .quit s => .ok .quit { s with quit := true }
        | .ok outcome s => .ok outcome s
        | .error e s => .error (e.map (.during (s.site i) ∘ .plain)) s

theorem shownByte_eq {m : Memory} {a : Nat} (ha : a < 2 ^ 32) :
    shownByte m a = .ok (match m.byte a with | .ok b => b | .error _ => 0) := by
  have hb := byte_agrees (m := m) ha
  unfold shownByte
  generalize byte m a = r, m.byte a = q at hb
  cases hb with
  | ok b => rfl
  | error he => rfl

theorem undecoded_eq {pc : Nat} (hp : pc < 2 ^ 32) : undecoded s pc = .ok (s.undecoded pc) := by
  rw [undecoded, shownByte_eq hp]
  rfl

theorem pc_expected {e : Fault} (h : s.core.pc = .error e) : e.Expected := by
  unfold Core.pc at h
  cases hs : s.core.frames with
  | nil =>
    rw [hs] at h
    cases h
    trivial
  | cons f rest =>
    rw [hs] at h
    cases h

end Checked

namespace Machine

variable [Host η]

open Checked in
theorem Fits.step (h : s.Fits n) (hn : n + 1 < 2 ^ 64) :
    Checked.step s = untrapped (Machine.step s) ∧
      (∀ e t, Machine.step s = .error e t → e.rootCause.Expected) ∧ s.after.Fits (n + 1) := by
  have longer : s.Fits (n + 1) := ⟨h.core, h.undo, h.tables, Nat.le_succ_of_le h.count⟩
  have hc := h.count
  unfold Machine.after Checked.step Machine.step
  dsimp only
  cases hp : s.core.pc with
  | error e =>
    refine ⟨rfl, ?_, longer⟩
    rintro _ _ ⟨⟩
    exact pc_expected hp
  | ok pc =>
    have low := h.pc_lt hp
    have decodes : Agrees (instruction s.core.memory s.version pc) _ := instruction_agrees low
    dsimp only
    cases hd : s.core.memory.instruction s.version pc with
    | error e =>
      rw [hd] at decodes
      rw [decodes.eq_plain, undecoded_eq low]
      refine ⟨rfl, ?_, longer⟩
      rintro _ _ ⟨⟩
      exact decodes.expected
    | ok i =>
      have hi := instruction_fits low hd
      rw [hd] at decodes
      -- of all the numbers only the count grows with the run
      rw [decodes.eq_plain, add_of_lt (by omega)]
      obtain ⟨follows, fits⟩ := execute_tracks hi (s.fetched i.next) (h.fetched hi.next)
      have counted : { s.fetched i.next with count := s.count + 1 } = s.fetched i.next := rfl
      dsimp only [plain]
      rw [counted]
      generalize Checked.execute i (s.fetched i.next) = r, Machine.execute i (s.fetched i.next) = q
        at follows fits
      cases follows with
      | ok o t =>
        refine ⟨?_, ?_, ?_⟩
        · cases o <;> rfl
        · cases o <;> rintro _ _ ⟨⟩
        · cases o <;> exact ⟨fits.core, fits.undo, fits.tables, fits.count⟩
      | error t he =>
        refine ⟨rfl, ?_, fits⟩
        rintro _ _ ⟨⟩
        exact he

theorem boot_fits {image : Array UInt8} {host : η} (h : boot image host = .ok s) :
    s.Fits 0 := by
  obtain ⟨m, -, h⟩ := ok_of_bind_except h
  obtain ⟨c, hc, h⟩ := ok_of_bind_except h
  obtain ⟨f, hf, hc⟩ := ok_of_bind_except hc
  cases h
  cases hc
  refine ⟨⟨?_, publish_sameSize ..⟩, List.forall_mem_nil _, List.forall_mem_nil _, Nat.le_refl 0⟩
  exact List.forall_mem_singleton.mpr (Checked.mainFrame_lt hf)

theorem iterate_fits (h : s.Fits 0) (hn : n < 2 ^ 64) : (after^[n] s).Fits n := by
  induction n with
  | zero => exact h
  | succ n ih =>
    rw [Function.iterate_succ_apply']
    exact ((ih (Nat.lt_of_succ_lt hn)).step hn).2.2

/-- In a run that can be counted in 64 bits, every step is the one by bounded numbers, which does
not trap, and if it fails, then by a fault that a story can bring about. -/
theorem steps_without_traps {image : Array UInt8} {host : η} (h : boot image host = .ok s)
    (hn : n < 2 ^ 64) :
    ∀ k < n, Checked.step (after^[k] s) = Checked.untrapped (step (after^[k] s)) ∧
      ∀ e t, step (after^[k] s) = .error e t → e.rootCause.Expected := by
  intro k hk
  have fits := iterate_fits (boot_fits h) (Nat.lt_trans hk hn)
  obtain ⟨same, expected, -⟩ := fits.step (by omega)
  exact ⟨same, expected⟩

def tallStory : Array UInt8 :=
  -- Prints a table of 65535 rows without width, 65535 bytes apart.
  #[5, 0, 0, 0, 0, 0, 0, 0x40] ++ Array.replicate 56 0 ++
    #[0xFE, 0x00, 0xFF, 0xFF, 0, 0, 0xFF, 0xFF, 0xFF, 0xFF]

def tallMachine : Machine Playback :=
  let memory : Memory := ⟨tallStory, by decide, by decide⟩
  start ⟨memory, memory, [{ pc := 0x40 }]⟩ {}

theorem boot_tallStory : boot tallStory ({} : Playback) = .ok tallMachine := rfl

def strayStory : Array UInt8 :=
  -- Jumps to before the first address, which is one of the last.
  #[5, 0, 0, 0, 0, 0, 0, 0x40] ++ Array.replicate 56 0 ++ #[0x8C, 0xC0, 0x00]

def strayMachine : Machine Playback :=
  let memory : Memory := ⟨strayStory, by decide, by decide⟩
  start ⟨memory, memory, [{ pc := 0x40 }]⟩ {}

theorem boot_strayStory : boot strayStory ({} : Playback) = .ok strayMachine := rfl

theorem steps_without_traps_extremes :
    (∃ i, tallMachine.upcoming = .ok i ∧ i.mnemonic = .printTable ∧
      i.rawOperands = [0xFFFF, 0, 0xFFFF, 0xFFFF]) ∧
    Checked.step tallMachine = Checked.untrapped (step tallMachine) ∧
    strayMachine.after.core.pc = .ok 4294950977 ∧
    Checked.step strayMachine.after = Checked.untrapped (step strayMachine.after) ∧
    ∃ e t, step strayMachine.after = .error e t ∧ e.rootCause.Expected := by
  have tall := steps_without_traps boot_tallStory (n := 1) (by omega) 0 (by decide)
  have stray := steps_without_traps boot_strayStory (n := 2) (by omega) 1 (by decide)
  obtain ⟨e, t, fails⟩ : ∃ e t, step strayMachine.after = .error e t := ⟨_, _, rfl⟩
  exact ⟨⟨_, rfl, rfl, rfl⟩, tall.1, rfl, stray.1, e, t, fails, stray.2 e t fails⟩

end Machine

end ZMachine
