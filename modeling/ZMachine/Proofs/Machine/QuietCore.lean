import ZMachine.Proofs.Memory.Size

/-!
Quiet work: what an instruction does before it decides where to go on. Of the call stack it
touches the top frame only, and there the locals and the evaluation stack.
-/

namespace ZMachine

structure Frame.Works (f g : Frame) : Prop where
  pc : g.pc = f.pc
  numLocals : g.numLocals = f.numLocals
  arity : g.arity = f.arity
  storeTo : g.storeTo = f.storeTo
  stack : f.stack.length ≤ evaluationLimit → g.stack.length ≤ evaluationLimit

namespace Frame

instance : IsPreorder Frame Works where
  refl _ := ⟨rfl, rfl, rfl, rfl, id⟩
  trans _ _ _ h h' := ⟨h'.pc.trans h.pc, h'.numLocals.trans h.numLocals, h'.arity.trans h.arity,
    h'.storeTo.trans h.storeTo, h'.stack ∘ h.stack⟩

theorem push_works {v : UInt16} : Leads Works (push v) := by
  intro f
  unfold push
  split
  · exact refl f
  · refine ⟨rfl, rfl, rfl, rfl, fun _ => ?_⟩
    simp only [ending_ok, List.length_cons]
    omega

theorem pop_works : Leads Works pop := by
  intro f
  unfold pop
  split
  · exact refl f
  · next hs =>
    refine ⟨rfl, rfl, rfl, rfl, fun h => ?_⟩
    rw [hs, List.length_cons] at h
    exact Nat.le_of_succ_le h

theorem replaceTop_works {v : UInt16} : Leads Works (replaceTop v) := by
  intro f
  unfold replaceTop
  split
  · exact refl f
  · next hs =>
    refine ⟨rfl, rfl, rfl, rfl, fun h => ?_⟩
    rw [hs] at h
    exact h

theorem writeLocal_works (i : Nat) (v : UInt16) (f : Frame) : f.Works (f.writeLocal i v) :=
  ⟨rfl, rfl, rfl, rfl, id⟩

end Frame

inductive CallStack.Works : CallStack → CallStack → Prop
  | empty : Works [] []
  | top {f g : Frame} {rest : CallStack} (h : f.Works g) : Works (f :: rest) (g :: rest)

namespace CallStack

instance : IsPreorder CallStack Works where
  refl
    | [] => .empty
    | f :: _ => .top (refl f)
  trans
    | _, _, _, .empty, .empty => .empty
    | _, _, _, .top h, .top h' => .top (IsTrans.trans _ _ _ h h')

theorem Works.length_eq {s t : CallStack} (h : Works s t) : t.length = s.length := by
  cases h with
  | empty => rfl
  | top h => rfl

theorem onTop_ok {α : Type} {act : Action Frame α} {f g : Frame} {a : α} (rest : CallStack)
    (h : act f = .ok a g) : onTop act (f :: rest) = .ok a (g :: rest) := by
  simp only [onTop, h]

theorem onTop_error {α : Type} {act : Action Frame α} {f g : Frame} {e : Fault} (rest : CallStack)
    (h : act f = .error e g) : onTop act (f :: rest) = .error e (g :: rest) := by
  simp only [onTop, h]

theorem onTop_works {α : Type} {act : Action Frame α} (h : Leads Frame.Works act) :
    Leads Works (onTop act) := by
  intro s
  cases s with
  | nil => exact .empty
  | cons f rest =>
    cases hs : act f with
    | ok a g =>
      rw [onTop_ok rest hs]
      exact .top (h.of_ok hs)
    | error e g =>
      rw [onTop_error rest hs]
      exact .top (h.of_error hs)

theorem unwindTo_cases (depth : Nat) (s : CallStack) :
    (∃ e, unwindTo depth s = .error e s) ∨
      ∃ above f rest, s = above ++ f :: rest ∧ rest.length + 1 = depth ∧
        unwindTo depth s = .ok () (f :: rest) := by
  by_cases bad : depth = 0 ∨ s.length < depth
  · exact .inl ⟨_, if_pos bad⟩
  · have hu : unwindTo depth s = .ok () (s.drop (s.length - depth)) := if_neg bad
    have hl : (s.drop (s.length - depth)).length = depth := by
      rw [List.length_drop]
      omega
    cases hk : s.drop (s.length - depth) with
    | nil =>
      rw [hk, List.length_nil] at hl
      omega
    | cons f rest =>
      rw [hk] at hl hu
      refine .inr ⟨s.take (s.length - depth), f, rest, ?_, hl, hu⟩
      rw [← hk, List.take_append_drop]

end CallStack

structure Core.Quiet (c d : Core) : Prop where
  size : c.memory.SameSize d.memory
  pristine : d.pristine = c.pristine
  frames : c.frames.Works d.frames

namespace Core

variable {α : Type}

instance : IsPreorder Core Quiet where
  refl _ := ⟨refl _, rfl, refl _⟩
  trans _ _ _ h h' := ⟨IsTrans.trans _ _ _ h.size h'.size, h'.pristine.trans h.pristine,
    IsTrans.trans _ _ _ h.frames h'.frames⟩

theorem onMemory_ok {act : Action Memory α} {c : Core} {m : Memory} {a : α}
    (h : act c.memory = .ok a m) : onMemory act c = .ok a { c with memory := m } := by
  simp only [onMemory, h]

theorem onMemory_error {act : Action Memory α} {c : Core} {m : Memory} {e : Fault}
    (h : act c.memory = .error e m) : onMemory act c = .error e { c with memory := m } := by
  simp only [onMemory, h]

theorem onFrames_ok {act : Action CallStack α} {c : Core} {frames : CallStack} {a : α}
    (h : act c.frames = .ok a frames) : onFrames act c = .ok a { c with frames } := by
  simp only [onFrames, h]

theorem onFrames_error {act : Action CallStack α} {c : Core} {frames : CallStack} {e : Fault}
    (h : act c.frames = .error e frames) : onFrames act c = .error e { c with frames } := by
  simp only [onFrames, h]

theorem onMemory_quiet {act : Action Memory α} (h : Leads Memory.SameSize act) :
    Leads Quiet (onMemory act) := by
  intro c
  cases hs : act c.memory with
  | ok a m =>
    rw [onMemory_ok hs]
    exact ⟨h.of_ok hs, rfl, refl _⟩
  | error e m =>
    rw [onMemory_error hs]
    exact ⟨h.of_error hs, rfl, refl _⟩

theorem onFrames_quiet {act : Action CallStack α} (h : Leads CallStack.Works act) :
    Leads Quiet (onFrames act) := by
  intro c
  cases hs : act c.frames with
  | ok a frames =>
    rw [onFrames_ok hs]
    exact ⟨refl _, rfl, h.of_ok hs⟩
  | error e frames =>
    rw [onFrames_error hs]
    exact ⟨refl _, rfl, h.of_error hs⟩

theorem onTop_quiet {act : Action Frame α} (h : Leads Frame.Works act) : Leads Quiet (onTop act) :=
  onFrames_quiet (CallStack.onTop_works h)

theorem readMemory_quiet {f : Memory → Except Fault α} : Leads Quiet (readMemory f) :=
  onMemory_quiet (.reading f)

theorem push_quiet {v : UInt16} : Leads Quiet (push v) := onTop_quiet Frame.push_works

theorem pop_quiet : Leads Quiet pop := onTop_quiet Frame.pop_works

theorem readVariable_quiet {n : UInt8} : Leads Quiet (readVariable n) :=
  .ite pop_quiet (.ite (onTop_quiet (.map _ .get)) readMemory_quiet)

theorem writeVariable_quiet {n : UInt8} {v : UInt16} : Leads Quiet (writeVariable n v) :=
  .ite push_quiet (.ite (onTop_quiet (.modify (Frame.writeLocal_works _ v)))
    (onMemory_quiet writeGlobal_sameSize))

theorem readIndirect_quiet {n : UInt8} : Leads Quiet (readIndirect n) :=
  .ite (onTop_quiet (.reading _)) readVariable_quiet

theorem writeIndirect_quiet {n : UInt8} {v : UInt16} : Leads Quiet (writeIndirect n v) :=
  .ite (onTop_quiet Frame.replaceTop_works) writeVariable_quiet

end Core

end ZMachine
