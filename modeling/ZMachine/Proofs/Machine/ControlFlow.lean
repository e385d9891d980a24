import ZMachine.Proofs.Instruction.Shape
import ZMachine.Proofs.Machine.CallBracket

namespace ZMachine

structure Frame.SameRoutine (f g : Frame) : Prop where
  numLocals : g.numLocals = f.numLocals
  arity : g.arity = f.arity
  storeTo : g.storeTo = f.storeTo

theorem Frame.Works.sameRoutine {f g : Frame} (h : f.Works g) : f.SameRoutine g :=
  ⟨h.numLocals, h.arity, h.storeTo⟩

theorem Frame.SameRoutine.trans {f g k : Frame} (h : f.SameRoutine g) (h' : g.SameRoutine k) :
    f.SameRoutine k :=
  ⟨h'.numLocals.trans h.numLocals, h'.arity.trans h.arity, h'.storeTo.trans h.storeTo⟩

namespace CallStack

variable {f g : Frame} {rest before after : CallStack} {height : Nat}

theorem Works.of_cons {t : CallStack} (h : Works (f :: rest) t) : ∃ g, t = g :: rest ∧ f.Works g := by
  cases h with
  | top h => exact ⟨_, rfl, h⟩

def frameAt? (s : CallStack) (height : Nat) : Option Frame := s.reverse[height]?

theorem frameAt?_append (above : CallStack) (h : height < rest.length) :
    frameAt? (above ++ rest) height = frameAt? rest height := by
  rw [frameAt?, List.reverse_append, List.getElem?_append_left (by simpa using h), frameAt?]

theorem frameAt?_cons (h : height < rest.length) :
    frameAt? (f :: rest) height = frameAt? rest height :=
  frameAt?_append [f] h

theorem frameAt?_top : frameAt? (f :: rest) rest.length = some f := by
  simp [frameAt?]

theorem lt_of_frameAt? {s : CallStack} (h : s.frameAt? height = some f) : height < s.length := by
  simpa using (List.getElem?_eq_some_iff.1 h).1

/-- What two stacks have in common. Frames that are on top of neither are the same; a frame that
both have belongs to the same routine, and goes on at the same place if it was not on top. -/
structure Shares (before after : CallStack) : Prop where
  below : ∀ height, height + 1 < min before.length after.length →
    after.frameAt? height = before.frameAt? height
  routine : ∀ height f g, before.frameAt? height = some f → after.frameAt? height = some g →
    f.SameRoutine g
  waiting : ∀ height f g, height + 1 < before.length → before.frameAt? height = some f →
    after.frameAt? height = some g → g.pc = f.pc

theorem Shares.of_common (above above' : CallStack) (h : f.SameRoutine g)
    (hpc : above ≠ [] → g.pc = f.pc) (honly : above = [] ∨ above' = []) :
    Shares (above ++ f :: rest) (above' ++ g :: rest) := by
  have inner {k : Frame} (above : CallStack) {height : Nat} (hlt : height < rest.length) :
      frameAt? (above ++ k :: rest) height = frameAt? rest height := by
    rw [frameAt?_append above (by rw [List.length_cons]; omega), frameAt?_cons hlt]
  have top {k : Frame} (above : CallStack) :
      frameAt? (above ++ k :: rest) rest.length = some k := by
    rw [frameAt?_append above (by simp), frameAt?_top]
  have shared {height : Nat} {x y : Frame} (hx : frameAt? (above ++ f :: rest) height = some x)
      (hy : frameAt? (above' ++ g :: rest) height = some y) :
      (height < rest.length ∧ y = x) ∨ (height = rest.length ∧ x = f ∧ y = g) := by
    have hx' := lt_of_frameAt? hx
    have hy' := lt_of_frameAt? hy
    have hle : height ≤ rest.length := by
      rcases honly with rfl | rfl
      · simp only [List.nil_append, List.length_cons] at hx'
        omega
      · simp only [List.nil_append, List.length_cons] at hy'
        omega
    rcases Nat.lt_or_eq_of_le hle with hlt | rfl
    · rw [inner above hlt] at hx
      rw [inner above' hlt, hx] at hy
      exact .inl ⟨hlt, (Option.some.inj hy).symm⟩
    · rw [top] at hx hy
      exact .inr ⟨rfl, (Option.some.inj hx).symm, (Option.some.inj hy).symm⟩
  constructor
  · intro height hmin
    have hlt : height < rest.length := by
      rcases honly with rfl | rfl
      all_goals
        simp only [List.nil_append, List.length_cons] at hmin
        omega
    rw [inner above' hlt, inner above hlt]
  · intro height x y hx hy
    obtain ⟨-, rfl⟩ | ⟨-, rfl, rfl⟩ := shared hx hy
    · exact ⟨rfl, rfl, rfl⟩
    · exact h
  · intro height x y hlt hx hy
    obtain ⟨-, rfl⟩ | ⟨rfl, rfl, rfl⟩ := shared hx hy
    · rfl
    · apply hpc
      rintro rfl
      simp at hlt

theorem Shares.of_sameRoutine (h : f.SameRoutine g) : Shares (f :: rest) (g :: rest) :=
  of_common [] [] h (fun hne => absurd rfl hne) (.inl rfl)

theorem Shares.of_push (k : Frame) : Shares rest (k :: rest) := by
  cases rest with
  | nil => constructor <;> simp [frameAt?]
  | cons f rest =>
    exact of_common [] [k] ⟨rfl, rfl, rfl⟩ (fun hne => absurd rfl hne) (.inl rfl)

theorem Shares.of_top (h : Shares (g :: rest) after) (hfg : f.SameRoutine g) :
    Shares (f :: rest) after := by
  have same {height : Nat} (hlt : height < rest.length) :
      frameAt? (f :: rest) height = frameAt? (g :: rest) height := by
    rw [frameAt?_cons hlt, frameAt?_cons hlt]
  constructor
  · intro height hmin
    rw [same (by simp only [List.length_cons] at hmin; omega)]
    exact h.below height (by simpa using hmin)
  · intro height x y hx hy
    rcases Nat.lt_or_eq_of_le (Nat.le_of_lt_succ (lt_of_frameAt? hx)) with hlt | rfl
    · rw [same hlt] at hx
      exact h.routine height x y hx hy
    · rw [frameAt?_top] at hx
      cases hx
      exact hfg.trans (h.routine _ g y frameAt?_top hy)
  · intro height x y hlt hx hy
    rw [same (Nat.lt_of_succ_lt_succ hlt)] at hx
    exact h.waiting height x y hlt hx hy

end CallStack

/-- Where an instruction that starts at a depth leaves control, by its outcome. -/
def Instruction.LeadsTo (i : Instruction) (operands : List UInt16) (depth : Nat) (c : Core) :
    Outcome → Prop
  | .proceeded | .quit => c.depth = depth ∧ c.pc = .ok i.next
  | .branched => c.depth = depth ∧
      ∃ offset, i.Jumps operands offset ∧ c.pc = .ok ((i.next + offset - 2) % 0x100000000 : Int).toNat
  | .called => c.depth = depth + 1 ∧
      ∃ f g rest store, c.frames = f :: g :: rest ∧ g.pc = i.next ∧ i.callResult? = some store ∧
        f.storeTo = store
  | .returned v => i.Exits operands v ∧
      c.depth + 1 = if i.mnemonic = .throwFrame then (operands.getD 1 0).toNat else depth

namespace Descriptor

theorem branch_of_throw {version raw : UInt8} (h : (normal version raw).mnemonic = .throwFrame) :
    (normal version raw).branch = false := by
  revert h
  obtain ⟨n, form, -, hd⟩ | ⟨n, hd⟩ | ⟨n, hd⟩ | ⟨n, hd⟩ := normal_cases version raw
  · rw [hd]
    change (Operation.ofTwo n).mnemonic = _ → (Operation.ofTwo n).branch = false
    unfold Operation.ofTwo
    split <;> decide
  · rw [hd]
    change (Operation.ofOne version n).mnemonic = _ → (Operation.ofOne version n).branch = false
    unfold Operation.ofOne
    split <;> first | decide | (split <;> decide)
  · rw [hd]
    change (Operation.ofNone version n).mnemonic = _ → (Operation.ofNone version n).branch = false
    unfold Operation.ofNone
    split <;> first | decide | (split <;> decide)
  · rw [hd]
    change (Operation.ofAny version n).mnemonic = _ → (Operation.ofAny version n).branch = false
    unfold Operation.ofAny
    split <;> first | decide | (split <;> decide)

theorem extended_ne_throw (raw : UInt8) : (extended raw).mnemonic ≠ .throwFrame := by
  change (Operation.ofExtended raw.toNat).mnemonic ≠ .throwFrame
  unfold Operation.ofExtended
  split <;> decide

end Descriptor

theorem Memory.branch_of_throw {m : Memory} {version : UInt8} {a : Nat} {i : Instruction}
    (h : m.instruction version a = .ok i) (hi : i.mnemonic = .throwFrame) : i.branch = none := by
  have hshape := (instruction_shaped h).branch
  obtain ⟨⟨_, b⟩, hf, ⟨⟩⟩ := ok_of_bind_except h
  obtain ⟨opcode, ks, a₁, a₂, a₃, a₄, a₅, hd, -⟩ := Fetch.instruction_parts hf
  obtain hn | ⟨-, extension, he⟩ := Fetch.descriptor_ok hd
  · rw [Instruction.mnemonic, hn] at hi
    rw [hn, Descriptor.branch_of_throw hi] at hshape
    simpa using hshape
  · rw [Instruction.mnemonic, he] at hi
    exact absurd hi (Descriptor.extended_ne_throw extension)

namespace Machine

variable {η : Type} {i : Instruction} {operands : List UInt16} {o : Outcome} {s t : Machine η}

theorem pc_of_frames {c : Core} {f : Frame} {rest : CallStack} (h : c.frames = f :: rest) :
    c.pc = .ok f.pc := by
  rw [Core.pc, h]
  rfl

section Effects

variable {f g : Frame} {rest above : CallStack} {v : UInt16}

theorem quiet_leadsTo (q : s.core.Quiet t.core) (htop : s.core.frames = f :: rest) (hpc : f.pc = i.next)
    (ho : o = .proceeded ∨ o = .quit) :
    i.LeadsTo operands s.core.depth t.core o ∧ s.core.frames.Shares t.core.frames := by
  have hw := q.frames
  rw [htop] at hw
  obtain ⟨g, ht, hfg⟩ := hw.of_cons
  constructor
  · have hlead : t.core.depth = s.core.depth ∧ t.core.pc = .ok i.next := by
      refine ⟨q.frames.length_eq, ?_⟩
      rw [pc_of_frames ht, hfg.pc, hpc]
    rcases ho with rfl | rfl
    · exact hlead
    · exact hlead
  · rw [htop, ht]
    exact .of_sameRoutine hfg.sameRoutine

theorem deliver_leadsTo {w : Machine η} {store : Option UInt8}
    (hframes : s.core.frames = above ++ g :: rest)
    (h : deliver store v (w.withFrames (g :: rest)) = .ok o t) :
    o = .returned v ∧ t.core.depth = rest.length + 1 ∧ s.core.frames.Shares t.core.frames := by
  obtain ⟨rfl, hstore⟩ := deliver_ok h
  have hw : CallStack.Works (g :: rest) t.core.frames := (storeTo_quiet.of_ok hstore).core.frames
  obtain ⟨k, ht, hgk⟩ := hw.of_cons
  refine ⟨rfl, hw.length_eq, ?_⟩
  rw [hframes, ht]
  exact .of_common above [] hgk.sameRoutine (fun _ => hgk.pc) (.inr rfl)

variable [Host η]

theorem Effect.leadsTo (he : Effect i operands s (.ok o t)) (hrestart : i.mnemonic ≠ .restart)
    (hundo : i.mnemonic = .restoreUndo → s.undo = []) (hthrow : i.mnemonic ≠ .throwFrame)
    (htop : s.core.frames = f :: rest) (hpc : f.pc = i.next) :
    i.LeadsTo operands s.core.depth t.core o ∧ s.core.frames.Shares t.core.frames := by
  -- Throws are left out: their outcome alone does not tell how deep they return.
  generalize hres : (EStateM.Result.ok o t : EStateM.Result Fault (Machine η) Outcome) = r at he
  cases he with
  | ends he =>
    cases he with
    | stays q flow =>
      subst hres
      exact quiet_leadsTo q.core htop hpc (flow o t rfl)
    | jumps q top taken =>
      cases hres
      have hw := q.core.frames
      rw [htop, top] at hw
      cases hw with
      | top hfg =>
        refine ⟨⟨?_, _, taken, rfl⟩, ?_⟩
        · rw [Core.depth, Core.depth, htop]
          rfl
        · rw [htop]
          exact .of_sameRoutine ⟨hfg.numLocals, hfg.arity, hfg.storeTo⟩
    | returns q frames exits =>
      have hw := q.core.frames
      rw [htop, frames] at hw
      cases hw with
      | top hfg =>
        have hframes : s.core.frames = [f] ++ _ :: _ := htop
        obtain ⟨rfl, hd, hshare⟩ := deliver_leadsTo hframes hres.symm
        refine ⟨⟨exits, ?_⟩, hshare⟩
        rw [if_neg hthrow, hd, Core.depth, htop]
        rfl
  | @calls frame store result _ routine _ =>
    cases hres
    have hstore : frame.storeTo = store := by
      obtain ⟨_, _, _, _, rfl⟩ := routineFrame_ok routine
      rfl
    refine ⟨⟨rfl, frame, f, rest, store, ?_, hpc, result, hstore⟩, .of_push frame⟩
    rw [← htop]
    rfl
  | unwinds throws => exact absurd throws hthrow
  | strands throws => exact absurd throws hthrow
  | saves =>
    have q := (Leads.bind storeTo_quiet fun _ => .pure _).of_ok hres.symm
    obtain ⟨_, _, -, ho⟩ := ok_of_bind_ok hres.symm
    cases ho
    exact quiet_leadsTo q.core htop hpc (.inl rfl)
  | restarts again => exact absurd again hrestart
  | reverts back undo =>
    rw [hundo back] at undo
    cases undo

theorem execute_throw_eq (hi : i.mnemonic = .throwFrame) (old : i.descriptor.minVersion ≤ t.version)
    (hr : resolveOperands i.operands s = .ok operands t) :
    execute i s = (do
      onCore (Core.onFrames (CallStack.unwindTo (operands.getD 1 0).toNat))
      returnValue (operands.getD 0 0) : Action (Machine η) Outcome) t := by
  have hfamily : i.mnemonic.family? = some .stack := by
    rw [hi]
    rfl
  rw [execute_of_family hr old hfamily]
  simp only [executeFamily, executeRoutine, hi]

omit [Host η] in
theorem passOver_eq (hb : i.branch = none) :
    (passOver i : Action (Machine η) Outcome) = (do storeTo i.store 0; return .proceeded) := by
  rw [passOver, branchOn, hb]

theorem execute_throw (hi : i.mnemonic = .throwFrame) (hb : i.branch = none)
    (hr : resolveOperands i.operands s = .ok operands t) {u : Machine η}
    (h : execute i s = .ok o u) :
    (o = .proceeded ∧ Quiet t u) ∨
      ∃ above f g rest, t.core.frames = above ++ f :: g :: rest ∧
        (operands.getD 1 0).toNat = rest.length + 2 ∧
        deliver f.storeTo (operands.getD 0 0) (t.withFrames (g :: rest)) = .ok o u := by
  by_cases old : i.descriptor.minVersion ≤ t.version
  · rw [execute_throw_eq hi old hr] at h
    obtain ⟨e, ht⟩ | ⟨above, f, -, ht⟩ | ⟨above, f, g, rest, hs, hd, ht⟩ :=
      throw_cases (operands.getD 0 0) (operands.getD 1 0) t
    · rw [ht] at h
      cases h
    · rw [ht] at h
      cases h
    · exact .inr ⟨above, f, g, rest, hs, hd, ht.symm.trans h⟩
  · rw [execute_of_new hr old, passOver_eq hb] at h
    obtain ⟨_, w, hw, h⟩ := ok_of_bind_ok h
    cases h
    exact .inl ⟨rfl, storeTo_quiet.of_ok hw⟩

theorem throw_leadsTo {w : Machine η} (hi : i.mnemonic = .throwFrame) (hb : i.branch = none)
    (hr : resolveOperands i.operands w = .ok operands s) (h : execute i w = .ok o t)
    (htop : s.core.frames = f :: rest) (hpc : f.pc = i.next) :
    i.LeadsTo operands s.core.depth t.core o ∧ s.core.frames.Shares t.core.frames := by
  obtain ⟨ho, q⟩ | ⟨above, x, g, below, hframes, hdepth, hdeliver⟩ := execute_throw hi hb hr h
  · exact quiet_leadsTo q.core htop hpc (.inl ho)
  · have happend : s.core.frames = (above ++ [x]) ++ g :: below := by
      rw [hframes, List.append_assoc]
      rfl
    obtain ⟨rfl, hd, hshare⟩ := deliver_leadsTo happend hdeliver
    refine ⟨⟨.throwFrame hi, ?_⟩, hshare⟩
    rw [if_pos hi, hd, hdepth]

end Effects

variable [Host η]

/-- A successful step leaves control where its outcome says. It moves nothing of the call stack but
the frames above the shared ones and the top one of these. -/
theorem control_after_step (h : Advances s i o t) (hrestart : i.mnemonic ≠ .restart)
    (hundo : i.mnemonic = .restoreUndo → s.undo = []) :
    ∃ operands s', resolveOperands i.operands (s.fetched i.next) = .ok operands s' ∧
      i.LeadsTo operands s.core.depth t.core o ∧ s.core.frames.Shares t.core.frames := by
  obtain ⟨t', hx, ht⟩ := execute_of_step h.upcoming h.step
  obtain ⟨operands, s', hres, he⟩ := effect_of_execute hx
  obtain ⟨f, g, hs, hs', hfg⟩ := frames_of_resolved h.upcoming hres
  have hdepth : s.core.depth = s'.core.depth := by
    rw [Core.depth, Core.depth, hs, hs']
    rfl
  refine ⟨operands, s', hres, ?_⟩
  have hleads : i.LeadsTo operands s'.core.depth t'.core o ∧ s'.core.frames.Shares t'.core.frames := by
    by_cases hthrow : i.mnemonic = .throwFrame
    · obtain ⟨pc, -, hi⟩ := pc_of_upcoming h.upcoming
      exact throw_leadsTo hthrow (Memory.branch_of_throw hi hthrow) hres hx hs' hfg.pc
    · have hundo' : i.mnemonic = .restoreUndo → s'.undo = [] := by
        intro hi
        rw [(resolveOperands_quiet.of_ok hres).undo]
        exact hundo hi
      exact he.leadsTo hrestart hundo' hthrow hs' hfg.pc
  rw [hdepth, ← ht]
  refine ⟨hleads.1, ?_⟩
  have hshare := hleads.2
  rw [hs'] at hshare
  rw [hs]
  exact hshare.of_top ⟨hfg.numLocals, hfg.arity, hfg.storeTo⟩

def throwingStory : Array UInt8 :=
  -- A main routine that calls a routine that calls another, which throws past its caller.
  #[5, 0, 0, 0, 0, 0, 0, 0x40] ++ Array.replicate 56 0 ++
    #[0xE0, 0x3F, 0, 0x12, 0, 0xBA, 0, 0, 0, 0xE0, 0x3F, 0, 0x14, 0, 0, 0, 0, 0x1C, 7, 2]

def throwingMachine : Machine Playback :=
  let memory : Memory := ⟨throwingStory, by decide, by decide⟩
  start ⟨memory, memory, [{ pc := 0x40 }]⟩ {}

theorem control_after_step_throwing :
    boot throwingStory ({} : Playback) = .ok throwingMachine ∧
      throwingMachine.after.after.core.depth = 3 ∧
      ∃ i, Advances throwingMachine.after.after i (.returned 7) throwingMachine.after.after.after ∧
        i.mnemonic = .throwFrame ∧ throwingMachine.after.after.after.core.depth = 1 ∧
        throwingMachine.after.after.core.frames.Shares
          throwingMachine.after.after.after.core.frames := by
  have throws : Advances throwingMachine.after.after _ (.returned 7)
      throwingMachine.after.after.after := ⟨rfl, rfl⟩
  obtain ⟨operands, s', hres, ⟨-, hdepth⟩, hshare⟩ :=
    control_after_step throws (by decide) (fun _ => rfl)
  have hoperands : operands = [7, 2] := by
    cases hres
    rfl
  rw [hoperands] at hdepth
  exact ⟨rfl, rfl, _, throws, rfl, Nat.succ.inj hdepth, hshare⟩

end Machine

end ZMachine
