import ZMachine.Proofs.Machine.Step

namespace ZMachine

namespace CallStack

/-- The frames of `base` wait for a routine that returns its result to `store`. -/
def Suspends (frames : CallStack) (store : Option UInt8) (base : CallStack) : Prop :=
  ∃ f : Frame, f.storeTo = store ∧ f :: base <:+ frames

namespace Suspends

variable {store : Option UInt8} {base frames : CallStack}

theorem push (h : Suspends frames store base) (g : Frame) : Suspends (g :: frames) store base := by
  obtain ⟨f, hf, hs⟩ := h
  exact ⟨f, hf, hs.trans (List.suffix_cons g frames)⟩

theorem replace_top {f g : Frame} (h : Suspends (f :: frames) store base)
    (hg : g.storeTo = f.storeTo) : Suspends (g :: frames) store base := by
  obtain ⟨f', hf', hs⟩ := h
  rcases List.suffix_cons_iff.mp hs with he | hs
  · cases he
    exact ⟨g, hg.trans hf', List.suffix_rfl⟩
  · exact ⟨f', hf', hs.trans (List.suffix_cons g frames)⟩

theorem of_works {t : CallStack} (h : Suspends frames store base) (hw : frames.Works t) :
    Suspends t store base := by
  cases hw with
  | empty => exact h
  | top hf => exact h.replace_top hf.storeTo

theorem drop {above rest : CallStack} (h : Suspends (above ++ rest) store base)
    (deep : base.length < rest.length) : Suspends rest store base := by
  obtain ⟨f, hf, hs⟩ := h
  exact ⟨f, hf, List.suffix_of_suffix_length_le hs (List.suffix_append above rest) deep⟩

theorem last {above rest : CallStack} {f : Frame} (h : Suspends (above ++ f :: rest) store base)
    (hl : rest.length = base.length) : rest = base ∧ f.storeTo = store := by
  obtain ⟨f', hf', hs⟩ := h
  have hs' := List.suffix_of_suffix_length_le hs (List.suffix_append above (f :: rest)) (by simp [hl])
  cases hs'.eq_of_length (by simp [hl])
  exact ⟨rfl, hf'⟩

end Suspends

end CallStack

namespace Machine

variable {η : Type}

theorem deliver_ok {store : Option UInt8} {v : UInt16} {o : Outcome} {s t : Machine η}
    (h : deliver store v s = .ok o t) : o = .returned v ∧ storeTo store v s = .ok () t := by
  obtain ⟨_, _, hs, h⟩ := ok_of_bind_ok h
  cases h
  exact ⟨rfl, hs⟩

section Instructions

variable {i : Instruction} {operands : List UInt16} {store : Option UInt8} {base : CallStack}
  {o : Outcome} {s t : Machine η}

theorem Ends.depth_le {r : EStateM.Result Fault (Machine η) Outcome} (h : Ends i operands s r) :
    (ending r).core.depth ≤ s.core.depth := by
  cases h with
  | stays q _ => exact Nat.le_of_eq q.core.frames.length_eq
  | jumps q top _ =>
    have hl := q.core.frames.length_eq
    rw [top] at hl
    exact Nat.le_of_eq hl
  | @returns t f g rest v q frames _ =>
    have hl := q.core.frames.length_eq
    have hd : (ending (deliver f.storeTo v (t.withFrames (g :: rest)))).core.depth = rest.length + 1 :=
      (Leads.bind storeTo_quiet (fun _ => .pure _) (t.withFrames (g :: rest))).core.frames.length_eq
    rw [frames, List.length_cons, List.length_cons] at hl
    rw [hd, Core.depth]
    omega

variable [Host η]

theorem Effect.called (he : Effect i operands s (.ok o t)) (hc : i.callResult? = some store)
    (deeper : s.core.depth < t.core.depth) : t.core.frames.Suspends store s.core.frames := by
  generalize hres : (EStateM.Result.ok o t : EStateM.Result Fault (Machine η) Outcome) = r at he
  cases he with
  | ends he =>
    subst hres
    exact absurd deeper (Nat.not_lt_of_le he.depth_le)
  | calls result _ routine _ =>
    cases hres
    obtain ⟨_, _, _, _, rfl⟩ := routineFrame_ok routine
    cases hc.symm.trans result
    exact ⟨_, rfl, List.suffix_rfl⟩
  | unwinds throws => rw [Instruction.callResult?, throws] at hc; cases hc
  | strands throws => rw [Instruction.callResult?, throws] at hc; cases hc
  | saves save => rw [Instruction.callResult?, save] at hc; cases hc
  | restarts again => rw [Instruction.callResult?, again] at hc; cases hc
  | reverts back => rw [Instruction.callResult?, back] at hc; cases hc

end Instructions

structure Advances [Host η] (s : Machine η) (i : Instruction) (o : Outcome) (t : Machine η) :
    Prop where
  upcoming : s.upcoming = .ok i
  step : step s = .ok o t

/-- Successful steps below a depth, none of which starts the story again or undoes. -/
inductive RunsBelow [Host η] (depth : Nat) (s : Machine η) : Machine η → Prop
  | start (deep : depth < s.core.depth) : RunsBelow depth s s
  | step {t u : Machine η} {i : Instruction} {o : Outcome} (run : RunsBelow depth s t)
    (advance : Advances t i o u) (noRestart : i.mnemonic ≠ .restart)
    (noUndo : i.mnemonic ≠ .restoreUndo) (deep : depth < u.core.depth) : RunsBelow depth s u

variable {store : Option UInt8} {base : CallStack} {s t u : Machine η}

variable [Host η]

theorem RunsBelow.deep {depth : Nat} (h : RunsBelow depth s t) : depth < s.core.depth := by
  induction h with
  | start deep => exact deep
  | step _ _ _ _ _ ih => exact ih

end Machine

end ZMachine
