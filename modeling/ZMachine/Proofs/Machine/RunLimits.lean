import ZMachine.Proofs.Machine.Failure

namespace ZMachine.Machine

variable {η θ : Type}

def seenBy (view : η → θ) (s : Machine η) : Machine θ :=
  { s with host := view s.host }

def seenEnd (view : η → θ) : EStateM.Result Failure (Machine η) Unit → Except Failure Unit × Machine θ
  | .ok () s => (.ok (), s.seenBy view)
  | .error e s => (.error e, s.seenBy view)

variable [Host η] {s t u : Machine η} {n k a b : Nat}

inductive Steps : Machine η → Nat → Machine η → Prop
  | none {s : Machine η} : Steps s 0 s
  | more {s t u : Machine η} {o : Outcome} {n : Nat} (running : s.quit = false) (first : step s = .ok o t)
    (rest : Steps t n u) : Steps s (n + 1) u

/-- The story quits with the last of `n` steps, or had quit before if there are none. -/
def QuitsAfter (s : Machine η) (n : Nat) : Prop := ∃ t, Steps s n t ∧ t.quit = true

theorem flush_of_perform {host : η} (h : Host.perform .flush s.host = .ok () host) :
    flush s = .ok () { s with host } := by
  simp only [flush, perform, ask, h]

theorem flush_ok (h : flush s = .ok () t) : ∃ host, t = { s with host } := by
  cases hp : Host.perform .flush s.host with
  | ok _ host =>
    rw [flush_of_perform hp] at h
    cases h
    exact ⟨host, rfl⟩
  | error e host =>
    simp only [flush, perform, ask, hp] at h
    cases h

theorem run_some (n : Nat) : run (some n) = (runFor n : EStateM Failure (Machine η) Unit) := rfl

theorem runFor_of_quit (ended : s.quit = true) (n : Nat) : runFor n s = flush s := by
  cases n with
  | zero =>
    rw [runFor, bind_get, if_pos ended]
  | succ n =>
    rw [runFor, bind_get, if_pos ended]

theorem runFor_zero (running : s.quit = false) : runFor 0 s = .ok () s := by
  rw [runFor, bind_get, if_neg (by simp [running])]
  rfl

theorem runFor_succ {o : Outcome} (running : s.quit = false) (first : step s = .ok o t) (n : Nat) :
    runFor (n + 1) s = runFor n t := by
  rw [runFor, bind_get, if_neg (by simp [running]), bind_ok _ first]

theorem count_of_step {o : Outcome} (h : step s = .ok o t) : t.count = s.count + 1 := by
  cases hu : s.upcoming with
  | error e =>
    obtain ⟨f, hf⟩ := step_of_no_upcoming hu
    rw [hf] at h
    cases h
  | ok i =>
    obtain ⟨quit, ha⟩ := after_of_upcoming hu
    have ht : t = { ending (execute i (s.fetched i.next)) with quit } := by
      rw [← ha, after, h, ending_ok]
    have hcount : (ending (execute i (s.fetched i.next))).count = (s.fetched i.next).count :=
      (execute_sameTally (s.fetched i.next)).1
    rw [ht]
    exact hcount

theorem Steps.count_eq (h : Steps s n t) : t.count = s.count + n := by
  induction h with
  | none => rfl
  | more _ first _ ih =>
    rw [ih, count_of_step first]
    omega

theorem Steps.le_of_quitsAfter (h : Steps s n t) (ended : QuitsAfter s k) : n ≤ k := by
  induction h generalizing k with
  | none => exact Nat.zero_le k
  | more running first _ ih =>
    obtain ⟨u, steps, hu⟩ := ended
    cases steps with
    | none => simp [running] at hu
    | more _ first' rest =>
      cases first.symm.trans first'
      exact Nat.succ_le_succ (ih ⟨u, rest, hu⟩)

theorem runFor_of_steps (h : Steps s k t) (n : Nat) : runFor (k + n) s = runFor n t := by
  induction h with
  | none => rw [Nat.zero_add]
  | more running first _ ih => rw [Nat.succ_add, runFor_succ running first, ih]

theorem steps_of_runFor (h : runFor n s = .ok () u) :
    ∃ k t, Steps s k t ∧ k ≤ n ∧
      (t.quit = true ∧ flush t = .ok () u ∨ t.quit = false ∧ k = n ∧ t = u) := by
  induction n generalizing s with
  | zero =>
    refine ⟨0, s, .none, Nat.le_refl 0, ?_⟩
    cases hq : s.quit with
    | true =>
      rw [runFor_of_quit hq] at h
      exact .inl ⟨rfl, h⟩
    | false =>
      rw [runFor_zero hq] at h
      cases h
      exact .inr ⟨rfl, rfl, rfl⟩
  | succ n ih =>
    cases hq : s.quit with
    | true =>
      rw [runFor_of_quit hq] at h
      exact ⟨0, s, .none, Nat.zero_le _, .inl ⟨hq, h⟩⟩
    | false =>
      rw [runFor, bind_get, if_neg (by simp [hq])] at h
      obtain ⟨o, v, first, hrest⟩ := ok_of_bind_ok h
      obtain ⟨k, t, steps, hk, hend⟩ := ih hrest
      refine ⟨k + 1, t, .more hq first steps, by omega, ?_⟩
      apply hend.imp_right
      rintro ⟨running, rfl, rfl⟩
      exact ⟨running, rfl, rfl⟩

theorem count_of_runFor (h : runFor n s = .ok () u) :
    (∀ k, QuitsAfter s k → u.count = s.count + min n k) ∧
      ((∀ k, ¬ QuitsAfter s k) → u.count = s.count + n) := by
  obtain ⟨j, t, steps, hj, hend⟩ := steps_of_runFor h
  have hcount : u.count = s.count + j := by
    rw [← steps.count_eq]
    obtain ⟨-, hflush⟩ | ⟨-, -, rfl⟩ := hend
    · obtain ⟨host, rfl⟩ := flush_ok hflush
      rfl
    · rfl
  rw [hcount]
  constructor
  · intro k ended
    have hjk : j ≤ k := steps.le_of_quitsAfter ended
    obtain ⟨hquit, -⟩ | ⟨-, rfl, -⟩ := hend
    · obtain ⟨v, steps', -⟩ := ended
      have hkj : k ≤ j := steps'.le_of_quitsAfter ⟨t, steps, hquit⟩
      omega
    · omega
  · intro endless
    obtain ⟨hquit, -⟩ | ⟨-, rfl, -⟩ := hend
    · exact absurd ⟨t, steps, hquit⟩ (endless j)
    · rfl

theorem runFor_add (h : runFor a s = .ok () t) (b : Nat) :
    t.quit = false ∧ runFor (a + b) s = runFor b t ∨
      t.quit = true ∧ runFor (a + b) s = .ok () t ∧ runFor b t = flush t := by
  obtain ⟨k, v, steps, hk, ⟨ended, hflush⟩ | ⟨running, rfl, rfl⟩⟩ := steps_of_runFor h
  · have ht : t.quit = true := by
      obtain ⟨host, rfl⟩ := flush_ok hflush
      exact ended
    have hsplit : a + b = k + (a - k + b) := by omega
    refine .inr ⟨ht, ?_, runFor_of_quit ht b⟩
    rw [hsplit, runFor_of_steps steps, runFor_of_quit ended, hflush]
  · exact .inl ⟨running, runFor_of_steps steps b⟩

/-- A flush of the host leaves alone what the observer sees, such as the dice, what is still to be typed and
what has been printed. -/
def FlushKeeps (view : η → θ) : Prop :=
  ∀ host after : η, Host.perform .flush host = .ok () after → view after = view host

/-- A run after a first part ends as the whole run does, in the same state of the machine, and every run
counts the steps that it makes before the limit or the end of the story. -/
theorem run_in_parts (flushes : ∀ host : η, ∃ after, Host.perform .flush host = .ok () after)
    (s : Machine η) :
    (∀ a b t, run (some a) s = .ok () t → ∀ {θ : Type} (view : η → θ), FlushKeeps view →
      seenEnd view (run (some b) t) = seenEnd view (run (some (a + b)) s)) ∧
    ∀ n u, run (some n) s = .ok () u →
      (∀ k, QuitsAfter s k → u.count = s.count + min n k) ∧
        ((∀ k, ¬ QuitsAfter s k) → u.count = s.count + n) := by
  refine ⟨fun a b t h θ view keeps => ?_, fun n u h => count_of_runFor h⟩
  rw [run_some] at h
  rw [run_some, run_some]
  obtain ⟨-, hwhole⟩ | ⟨-, hwhole, hrest⟩ := runFor_add h b
  · rw [hwhole]
  · obtain ⟨host, hflush⟩ := flushes t.host
    rw [hwhole, hrest, flush_of_perform hflush]
    simp only [seenEnd, seenBy, keeps t.host host hflush]

def briefStory : Array UInt8 :=
  -- Prints a line and quits.
  #[5, 0, 0, 0, 0, 0, 0, 0x40] ++ Array.replicate 56 0 ++ #[0xBB, 0xBA]

def briefMachine : Machine Playback :=
  let memory : Memory := ⟨briefStory, by decide, by decide⟩
  start ⟨memory, memory, [{ pc := 0x40 }]⟩ {}

theorem run_in_parts_brief :
    ∃ t, run (some 2) briefMachine = .ok () t ∧ t.quit = true ∧
      seenEnd id (run (some 3) t) = seenEnd id (run (some 5) briefMachine) ∧
      QuitsAfter briefMachine 2 ∧ t.count = 2 := by
  have flushes (host : Playback) : ∃ after, Host.perform .flush host = .ok () after := ⟨_, rfl⟩
  have keeps : FlushKeeps (id : Playback → Playback) := by
    rintro host after ⟨⟩
    rfl
  obtain ⟨parts, counts⟩ := run_in_parts flushes briefMachine
  have first : run (some 2) briefMachine = .ok () briefMachine.after.after := rfl
  have quits : QuitsAfter briefMachine 2 :=
    ⟨_, .more (t := briefMachine.after) (o := .proceeded) rfl rfl
      (.more (t := briefMachine.after.after) (o := .quit) rfl rfl .none), rfl⟩
  exact ⟨_, first, rfl, parts 2 3 _ first id keeps, quits, (counts 2 _ first).1 2 quits⟩

end ZMachine.Machine
