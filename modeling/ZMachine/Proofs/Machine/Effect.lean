import ZMachine.Proofs.Machine.Quiet

/-!
What an instruction can come to. Most instructions work quietly and then end in one of a few
ways; calls, unwinding, undoing and the restart have effects of their own.
-/

namespace ZMachine

def Instruction.callResult? (i : Instruction) : Option (Option UInt8) :=
  match i.mnemonic with
  | .call1s | .call2s | .callVs | .callVs2 => some i.store
  | .call1n | .call2n | .callVn | .callVn2 => some none
  | _ => none

/-- The ways to leave a routine, with the value that is returned. -/
inductive Instruction.Exits (i : Instruction) (operands : List UInt16) : UInt16 → Prop
  | ret (h : i.mnemonic = .ret) : Exits i operands (operands.getD 0 0)
  | rtrue (h : i.mnemonic = .rtrue) : Exits i operands 1
  | rfalse (h : i.mnemonic = .rfalse) : Exits i operands 0
  | retPopped {v : UInt16} (h : i.mnemonic = .retPopped) : Exits i operands v
  | printRet (h : i.mnemonic = .printRet) : Exits i operands 1
  | throwFrame (h : i.mnemonic = .throwFrame) : Exits i operands (operands.getD 0 0)
  | branchFalse {b : Branch} (h : i.branch = some b) (h0 : b.offset = 0) : Exits i operands 0
  | branchTrue {b : Branch} (h : i.branch = some b) (h1 : b.offset = 1) : Exits i operands 1

/-- The offset by which control may be moved: that of the branch, or the operand of a jump. -/
inductive Instruction.Jumps (i : Instruction) (operands : List UInt16) : Int → Prop
  | branch {b : Branch} (h : i.branch = some b) (h0 : b.offset ≠ 0) (h1 : b.offset ≠ 1) :
    Jumps i operands b.offset
  | jump {offset : UInt16} {rest : List UInt16} (h : i.mnemonic = .jump)
    (ho : operands = offset :: rest) : Jumps i operands offset.toInt16.toInt

namespace Machine

variable {η α : Type}

def withFrames (frames : CallStack) (s : Machine η) : Machine η :=
  { s with core := { s.core with frames } }

theorem routineFrame_ok {version : UInt8} {a : Nat} {args : List UInt16} {store : Option UInt8}
    {m : Memory} {f : Frame} (h : routineFrame version a args store m = .ok f) :
    ∃ (n : UInt8) (initial : List UInt16), m.byte a = .ok n ∧ n ≤ Core.maxLocals ∧
      f = {
        pc := a + 1 + 2 * initial.length
        locals := bindLocals n.toNat args initial
        numLocals := n
        arity := UInt8.ofNat args.length
        storeTo := store } := by
  obtain ⟨n, hn, h⟩ := ok_of_bind_except h
  dsimp only at h
  by_cases large : Core.maxLocals < n
  · rw [if_pos large] at h
    cases h
  · rw [if_neg large] at h
    split at h
    · obtain ⟨initial, _, h⟩ := ok_of_bind_except h
      cases h
      exact ⟨n, initial, hn, UInt8.not_lt.mp large, rfl⟩
    · cases h
      exact ⟨n, [], hn, UInt8.not_lt.mp large, rfl⟩

def deliver (store : Option UInt8) (v : UInt16) : Action (Machine η) Outcome := do
  storeTo store v
  return .returned v

theorem returnValue_of_frames {s : Machine η} {f g : Frame} {rest : CallStack} (v : UInt16)
    (h : s.core.frames = f :: g :: rest) :
    returnValue v s = deliver f.storeTo v (s.withFrames (g :: rest)) := by
  have hp : CallStack.pop s.core.frames = .ok f (g :: rest) := by rw [h]; rfl
  rw [returnValue, bind_ok _ (onCore_ok (Core.onFrames_ok hp))]
  rfl

theorem returnValue_of_main {s : Machine η} (v : UInt16) (h : s.core.frames.length ≤ 1) :
    returnValue v s = .error (.stackUnderflow .returnFromMain) s := by
  have hp : CallStack.pop s.core.frames =
      .error (.stackUnderflow .returnFromMain) s.core.frames := by
    rcases hf : s.core.frames with _ | ⟨f, _ | ⟨g, rest⟩⟩
    · rfl
    · rfl
    · rw [hf] at h
      simp only [List.length_cons] at h
      omega
  rw [returnValue, bind_error _ (onCore_error (Core.onFrames_error hp))]

theorem throw_cases (value depth : UInt16) (s : Machine η) :
    let thrown := (do
      onCore (Core.onFrames (CallStack.unwindTo depth.toNat))
      returnValue value : Action (Machine η) Outcome) s
    (∃ e, thrown = .error e s) ∨
      (∃ above f, s.core.frames = above ++ [f] ∧
        thrown = .error (.stackUnderflow .returnFromMain) (s.withFrames [f])) ∨
      ∃ above f g rest, s.core.frames = above ++ f :: g :: rest ∧ depth.toNat = rest.length + 2 ∧
        thrown = deliver f.storeTo value (s.withFrames (g :: rest)) := by
  dsimp only
  obtain ⟨e, hu⟩ | ⟨above, f, rest, hs, hd, hu⟩ :=
    CallStack.unwindTo_cases depth.toNat s.core.frames
  · exact .inl ⟨e, bind_error _ (onCore_error (Core.onFrames_error hu))⟩
  · rw [bind_ok _ (onCore_ok (Core.onFrames_ok hu))]
    change _ ∨ (∃ above f, _ ∧ returnValue value (s.withFrames _) = _) ∨
      ∃ above f g rest, _ ∧ _ ∧ returnValue value (s.withFrames _) = _
    cases rest with
    | nil => exact .inr (.inl ⟨above, f, hs, returnValue_of_main _ (Nat.le_refl 1)⟩)
    | cons g rest =>
      exact .inr (.inr ⟨above, f, g, rest, hs, hd.symm, returnValue_of_frames _ rfl⟩)

inductive Ends (i : Instruction) (operands : List UInt16) (s : Machine η) :
    EStateM.Result Fault (Machine η) Outcome → Prop
  | stays {r : EStateM.Result Fault (Machine η) Outcome} (quiet : Quiet s (ending r))
    (flow : ∀ o t, r = .ok o t → o = .proceeded ∨ o = .quit) : Ends i operands s r
  | jumps {t : Machine η} {f : Frame} {rest : CallStack} {offset : Int} (quiet : Quiet s t)
    (top : t.core.frames = f :: rest) (taken : i.Jumps operands offset) :
    Ends i operands s
      (.ok .branched (t.withFrames ({ f with pc := target i.next offset } :: rest)))
  | returns {t : Machine η} {f g : Frame} {rest : CallStack} {v : UInt16} (quiet : Quiet s t)
    (frames : t.core.frames = f :: g :: rest) (exits : i.Exits operands v) :
    Ends i operands s (deliver f.storeTo v (t.withFrames (g :: rest)))

theorem Ends.after {i : Instruction} {operands : List UInt16} {s t : Machine η}
    {r : EStateM.Result Fault (Machine η) Outcome} (h : Ends i operands t r) (quiet : Quiet s t) :
    Ends i operands s r := by
  cases h with
  | stays q flow => exact .stays (quiet.trans q) flow
  | jumps q top taken => exact .jumps (quiet.trans q) top taken
  | returns q frames exits => exact .returns (quiet.trans q) frames exits

def Concludes (i : Instruction) (operands : List UInt16) (act : Action (Machine η) Outcome) : Prop :=
  ∀ s, Ends i operands s (act s)

namespace Concludes

variable {i : Instruction} {operands : List UInt16}

theorem bind {x : Action (Machine η) α} {f : α → Action (Machine η) Outcome} (hx : Leads Quiet x)
    (hf : ∀ a, Concludes i operands (f a)) : Concludes i operands (x >>= f) := by
  intro s
  cases hs : x s with
  | ok a t =>
    rw [bind_ok f hs]
    exact (hf a t).after (hx.of_ok hs)
  | error e t =>
    rw [bind_error f hs]
    exact .stays (hx.of_error hs) (by rintro _ _ ⟨⟩)

theorem ite {c : Prop} [Decidable c] {x y : Action (Machine η) Outcome}
    (hx : Concludes i operands x) (hy : Concludes i operands y) :
    Concludes i operands (if c then x else y) := by
  split
  · exact hx
  · exact hy

theorem proceeded : Concludes i operands (Pure.pure .proceeded : Action (Machine η) Outcome) :=
  fun s => .stays (refl s) (by rintro _ _ ⟨⟩; exact .inl rfl)

theorem quit : Concludes i operands (Pure.pure .quit : Action (Machine η) Outcome) :=
  fun s => .stays (refl s) (by rintro _ _ ⟨⟩; exact .inr rfl)

theorem throw (e : Fault) : Concludes i operands (throw e : Action (Machine η) Outcome) :=
  fun s => .stays (refl s) (by rintro _ _ ⟨⟩)

theorem storeResult {j : Instruction} {v : UInt16} :
    Concludes i operands (storeResult j v : Action (Machine η) Outcome) :=
  .bind storeTo_quiet fun _ => .proceeded

theorem returnValue {v : UInt16} (h : i.Exits operands v) :
    Concludes i operands (returnValue v : Action (Machine η) Outcome) := by
  intro s
  rcases hf : s.core.frames with _ | ⟨f, _ | ⟨g, rest⟩⟩
  · rw [returnValue_of_main v (by rw [hf]; exact Nat.zero_le 1)]
    exact .stays (refl s) (by rintro _ _ ⟨⟩)
  · rw [returnValue_of_main v (by rw [hf]; exact Nat.le_refl 1)]
    exact .stays (refl s) (by rintro _ _ ⟨⟩)
  · rw [returnValue_of_frames v hf]
    exact .returns (refl s) hf h

theorem jumpBy {offset : Int} (h : i.Jumps operands offset) :
    Concludes i operands (jumpBy i offset : Action (Machine η) Outcome) := by
  intro s
  cases hf : s.core.frames with
  | nil =>
    have hp : Core.setPc (target i.next offset) s.core =
        .error (.stackUnderflow .noRoutine) { s.core with frames := [] } := by
      rw [Core.setPc, Core.onTop, Core.onFrames_error]
      rw [hf]
      rfl
    rw [Machine.jumpBy, bind_error _ (onCore_error hp), ← hf]
    exact .stays (refl s) (by rintro _ _ ⟨⟩)
  | cons f rest =>
    have hp : Core.setPc (target i.next offset) s.core =
        .ok () { s.core with frames := { f with pc := target i.next offset } :: rest } := by
      rw [Core.setPc, Core.onTop, Core.onFrames_ok]
      rw [hf]
      rfl
    rw [Machine.jumpBy, bind_ok _ (onCore_ok hp)]
    exact .jumps (refl s) hf h

theorem branchOn {condition : Bool} :
    Concludes i operands (branchOn i condition : Action (Machine η) Outcome) := by
  unfold Machine.branchOn
  cases hb : i.branch with
  | none => exact .proceeded
  | some b =>
    dsimp only
    split
    · exact .proceeded
    · split
      · next h0 => exact .returnValue (.branchFalse hb h0)
      · next h0 =>
        split
        · next h1 => exact .returnValue (.branchTrue hb h1)
        · next h1 => exact .jumpBy (.branch hb h0 h1)

theorem passOver : Concludes i operands (passOver i : Action (Machine η) Outcome) :=
  .bind storeTo_quiet fun _ => .branchOn

end Concludes

end Machine

end ZMachine
