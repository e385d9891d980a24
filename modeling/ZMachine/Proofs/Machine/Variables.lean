import ZMachine.Proofs.Machine.ControlFlow
import ZMachine.Proofs.Machine.Undo

namespace ZMachine

theorem lowByte_ofBytes16 (high low : UInt8) : lowByte (ofBytes16 high low) = low := by
  apply UInt8.toNat_inj.1
  have hl := low.toNat_lt
  simp only [lowByte, toNat_ofBytes16, UInt8.toNat_ofNat']
  omega

theorem Memory.setWord_self {m : Memory} {a : Nat} {w : UInt16} (h : m.word a = .ok w) :
    setWord a w m = .ok () m := by
  have inside := word_inside h
  rw [word, dif_pos inside, Except.ok.injEq] at h
  rw [setWord, dif_pos inside]
  congr 1
  apply eq_of_bytes
  · simp only [SameSize, size_set]
  · intro b
    rw [byte_set, byte_set, ← h, lowByte_ofBytes16, highByte_ofBytes16]
    split
    · next hb => rw [hb, byte, dif_pos inside]
    · split
      · next hb => rw [hb, byte, dif_pos (Nat.lt_of_succ_lt inside)]
      · rfl

namespace Frame

variable {f : Frame} {i j : Nat} {v w : UInt16}

theorem readLocal_writeLocal (hi : i < 16) : (f.writeLocal i v).readLocal i = v := by
  simp [readLocal, writeLocal, hi]

theorem readLocal_writeLocal_ne (hij : i ≠ j) : (f.writeLocal i v).readLocal j = f.readLocal j := by
  simp [readLocal, writeLocal, Vector.getElem?_setIfInBounds_ne hij]

theorem writeLocal_back : (f.writeLocal i v).writeLocal i (f.readLocal i) = f := by
  have same : (f.locals.setIfInBounds i v).setIfInBounds i (f.readLocal i) = f.locals := by
    apply Vector.ext
    intro k hk
    by_cases hik : i = k
    · subst hik
      simp [readLocal, hk]
    · simp [hik]
  rw [writeLocal, writeLocal, same]

end Frame

namespace Core

open Memory (ChangesAt)

def value (n : UInt8) (c : Core) : Except Fault UInt16 :=
  match readVariable n c with
  | .ok v _ => .ok v
  | .error e _ => .error e

def place (m : Memory) (n : UInt8) : Nat := m.globalVariables.toNat + (n.toNat - 16) * 2

variable {c d : Core} {f g : Frame} {rest : CallStack} {n k : UInt8} {v w : UInt16}

theorem onTop_ok {α : Type} {act : Action Frame α} {a : α} (top : c.frames = f :: rest) (h : act f = .ok a g) :
    onTop act c = .ok a { c with frames := g :: rest } :=
  onFrames_ok (top ▸ CallStack.onTop_ok rest h)

theorem onTop_error {α : Type} {act : Action Frame α} {e : Fault} (top : c.frames = f :: rest)
    (h : act f = .error e g) : onTop act c = .error e { c with frames := g :: rest } :=
  onFrames_error (top ▸ CallStack.onTop_error rest h)

theorem writeGlobal_eq (large : ¬ n < 16) (v : UInt16) (m : Memory) :
    writeGlobal n v m = Memory.setWord (place m n) v m := by
  have haddress : globalAddress m n = .ok (place m n) := if_neg large
  exact bind_ok _ (reading_ok haddress)

theorem value_local (top : c.frames = f :: rest) (hn : n ≠ 0) (small : n < 16) :
    value n c = .ok (f.readLocal (n.toNat - 1)) := by
  obtain ⟨memory, pristine, _⟩ := c
  cases top
  rw [value, readVariable, if_neg hn, if_pos small]
  rfl

theorem value_global (large : ¬ n < 16) : value n c = c.memory.word (place c.memory n) := by
  have hn : n ≠ 0 := by
    rintro rfl
    exact large (by decide)
  have hread : readGlobal c.memory n = c.memory.word (place c.memory n) := by
    rw [readGlobal, globalAddress, if_neg large]
    rfl
  rw [value, readVariable, if_neg hn, if_neg large, readMemory]
  cases hw : c.memory.word (place c.memory n) with
  | ok v => rw [onMemory_ok (reading_ok (hread.trans hw))]
  | error e => rw [onMemory_error (reading_error (hread.trans hw))]

theorem readVariable_of_value (hn : n ≠ 0) (h : value n c = .ok v) : readVariable n c = .ok v c := by
  have hstate := readVariable_state hn c
  rw [value] at h
  cases hr : readVariable n c with
  | ok v' d =>
    rw [hr] at h hstate
    cases h
    rw [hstate, ending_ok]
  | error e d =>
    rw [hr] at h
    cases h

inductive Writes (n : UInt8) (v : UInt16) (c : Core) : Core → Prop
  | push {f : Frame} {rest : CallStack} (hn : n = 0) (top : c.frames = f :: rest) :
    Writes n v c { c with frames := { f with stack := v :: f.stack } :: rest }
  | toLocal {f : Frame} {rest : CallStack} (hn : n ≠ 0) (small : n < 16) (top : c.frames = f :: rest) :
    Writes n v c { c with frames := f.writeLocal (n.toNat - 1) v :: rest }
  | toGlobal {m : Memory} (large : ¬ n < 16) (changes : ChangesAt (place c.memory n) 2 c.memory m)
    (word : m.word (place c.memory n) = .ok v) :
    Writes n v c { c with memory := m }

theorem writeVariable_cases (n : UInt8) (v : UInt16) (c : Core) :
    (∃ d, writeVariable n v c = .ok () d ∧ Writes n v c d) ∨ ∃ e, writeVariable n v c = .error e c := by
  unfold writeVariable
  split
  · next hn =>
    obtain ⟨memory, pristine, _ | ⟨f, rest⟩⟩ := c
    · exact .inr ⟨_, rfl⟩
    · by_cases full : evaluationLimit ≤ f.stack.length
      · have hp : Frame.push v f = .error (.stackOverflow evaluationLimit) f := if_pos full
        exact .inr ⟨_, onTop_error rfl hp⟩
      · have hp : Frame.push v f = .ok () { f with stack := v :: f.stack } := if_neg full
        exact .inl ⟨_, onTop_ok rfl hp, .push hn rfl⟩
  · next hn =>
    split
    · next small =>
      obtain ⟨memory, pristine, _ | ⟨f, rest⟩⟩ := c
      · exact .inr ⟨_, rfl⟩
      · exact .inl ⟨_, rfl, .toLocal hn small rfl⟩
    · next large =>
      have hwrite := writeGlobal_eq large v c.memory
      by_cases inside : place c.memory n + 1 < c.memory.bytes.size
      · obtain ⟨m, hset, hc, hw⟩ := Memory.setWord_ok v inside
        exact .inl ⟨_, onMemory_ok (hwrite.trans hset), .toGlobal large hc hw⟩
      · have hset : Memory.setWord (place c.memory n) v c.memory =
            .error (c.memory.outside (place c.memory n) 2) c.memory := dif_neg inside
        exact .inr ⟨_, onMemory_error (hwrite.trans hset)⟩

theorem writes_of_writeVariable (h : writeVariable n v c = .ok () d) : Writes n v c d := by
  obtain ⟨d', hd, hw⟩ | ⟨e, he⟩ := writeVariable_cases n v c
  · cases h.symm.trans hd
    exact hw
  · cases h.symm.trans he

theorem le_place (m : Memory) (n : UInt8) : m.globalVariables.toNat ≤ place m n := Nat.le_add_right ..

theorem place_of_changesAt {m m' : Memory} (hc : ChangesAt (place m n) 2 m m')
    (apart : 0x0E ≤ m.globalVariables.toNat) (k : UInt8) : place m' k = place m k := by
  -- Globals behind the word that tells where they are do not move themselves.
  have hfirst := le_place m n
  have same : m'.globalVariables = m.globalVariables := by
    apply Memory.headerWord_congr hc.size
    · exact hc.byte 0x0C (by omega)
    · exact hc.byte 0x0D (by omega)
  rw [place, place, same]

theorem place_apart {m : Memory} (hn : ¬ n < 16) (hk : ¬ k < 16) (hne : k ≠ n) :
    place m k + 2 ≤ place m n ∨ place m n + 2 ≤ place m k := by
  have hne' : k.toNat ≠ n.toNat := fun h => hne (UInt8.toNat_inj.1 h)
  rw [UInt8.not_lt, UInt8.le_iff_toNat_le] at hn hk
  change 16 ≤ _ at hn hk
  unfold place
  omega

theorem local_index (hn : n ≠ 0) (small : n < 16) : n.toNat - 1 < 16 ∧ 0 < n.toNat := by
  have hpos : n.toNat ≠ 0 := fun h => hn (UInt8.toNat_inj.1 h)
  rw [UInt8.lt_iff_toNat_lt] at small
  change n.toNat < 16 at small
  omega

namespace Writes

theorem value_self (h : Writes n v c d) (hn : n ≠ 0) (apart : 0x0E ≤ c.memory.globalVariables.toNat) :
    value n d = .ok v := by
  cases h with
  | push zero => exact absurd zero hn
  | toLocal _ small top =>
    rw [value_local rfl hn small, Frame.readLocal_writeLocal (local_index hn small).1]
  | toGlobal large changes word =>
    rw [value_global large, place_of_changesAt changes apart, word]

theorem value_other (h : Writes n v c d) (apart : 0x0E ≤ c.memory.globalVariables.toNat)
    (top : c.frames = f :: rest) (hk : k ≠ 0) (hne : k ≠ n) : value k d = value k c := by
  by_cases small : k < 16
  · rw [value_local top hk small]
    cases h with
    | push _ top' =>
      cases top.symm.trans top'
      rw [value_local rfl hk small]
      rfl
    | toLocal hn small' top' =>
      cases top.symm.trans top'
      have hi := local_index hk small
      have hi' := local_index hn small'
      have hne' : k.toNat ≠ n.toNat := fun h => hne (UInt8.toNat_inj.1 h)
      rw [value_local rfl hk small, Frame.readLocal_writeLocal_ne (by omega)]
    | toGlobal => exact value_local top hk small
  · rw [value_global small, value_global small]
    cases h with
    | push => rfl
    | toLocal => rfl
    | toGlobal large changes =>
      rw [place_of_changesAt changes apart]
      apply changes.word
      exact place_apart large small hne

theorem stack_eq (h : Writes n v c d) (hn : n ≠ 0) (top : c.frames = f :: rest) :
    ∃ g, d.frames = g :: rest ∧ g.stack = f.stack := by
  cases h with
  | push zero => exact absurd zero hn
  | toLocal _ _ top' =>
    cases top.symm.trans top'
    exact ⟨_, rfl, rfl⟩
  | toGlobal => exact ⟨f, top, rfl⟩

theorem readVariable_back (h : Writes n v c d) (hn : n = 0) : readVariable n d = .ok v c := by
  subst hn
  cases h with
  | push _ top =>
    obtain ⟨memory, pristine, _⟩ := c
    cases top
    rfl
  | toLocal hn => exact absurd rfl hn
  | toGlobal large => exact absurd (by decide) large

end Writes

theorem readIndirect_state : Leads Eq (readIndirect n) := by
  unfold readIndirect
  split
  · rintro ⟨memory, pristine, _ | ⟨f, rest⟩⟩
    · rfl
    · unfold peek
      cases hp : f.peek with
      | ok v => rw [onTop_ok rfl (reading_ok hp), ending_ok]
      | error e => rw [onTop_error rfl (reading_error hp), ending_error]
  · next hn => exact readVariable_state hn

inductive Replaces (n : UInt8) (v : UInt16) (c : Core) : Core → Prop
  | top {f : Frame} {rest : CallStack} {old : UInt16} {stack : List UInt16} (hn : n = 0)
    (top : c.frames = f :: rest) (held : f.stack = old :: stack) :
    Replaces n v c { c with frames := { f with stack := v :: stack } :: rest }
  | cell {d : Core} (hn : n ≠ 0) (writes : Writes n v c d) : Replaces n v c d

theorem writeIndirect_cases (n : UInt8) (v : UInt16) (c : Core) :
    (∃ d, writeIndirect n v c = .ok () d ∧ Replaces n v c d) ∨ ∃ e, writeIndirect n v c = .error e c := by
  unfold writeIndirect
  split
  · next hn =>
    obtain ⟨memory, pristine, _ | ⟨f, rest⟩⟩ := c
    · exact .inr ⟨_, rfl⟩
    · cases hs : f.stack with
      | nil =>
        have hr : Frame.replaceTop v f = .error (.stackUnderflow (.noTop f.pc)) f := by
          rw [Frame.replaceTop, hs]
        exact .inr ⟨_, onTop_error rfl hr⟩
      | cons old stack =>
        have hr : Frame.replaceTop v f = .ok () { f with stack := v :: stack } := by
          rw [Frame.replaceTop, hs]
        exact .inl ⟨_, onTop_ok rfl hr, .top hn rfl hs⟩
  · next hn =>
    obtain ⟨d, hd, hw⟩ | ⟨e, he⟩ := writeVariable_cases n v c
    · exact .inl ⟨d, hd, .cell hn hw⟩
    · exact .inr ⟨e, he⟩

theorem replaces_of_writeIndirect (h : writeIndirect n v c = .ok () d) : Replaces n v c d := by
  obtain ⟨d', hd, hr⟩ | ⟨e, he⟩ := writeIndirect_cases n v c
  · cases h.symm.trans hd
    exact hr
  · cases h.symm.trans he

namespace Replaces

theorem readIndirect_eq (h : Replaces n v c d) (apart : 0x0E ≤ c.memory.globalVariables.toNat) :
    readIndirect n d = .ok v d := by
  cases h with
  | top hn top held =>
    rw [readIndirect, if_pos hn]
    rfl
  | cell hn writes =>
    rw [readIndirect, if_neg hn]
    exact readVariable_of_value hn (writes.value_self hn apart)

theorem depth_eq (h : Replaces n v c d) (top : c.frames = f :: rest) :
    ∃ g, d.frames = g :: rest ∧ g.stack.length = f.stack.length := by
  cases h with
  | top _ top' held =>
    cases top.symm.trans top'
    refine ⟨_, rfl, ?_⟩
    rw [held]
    rfl
  | cell hn writes =>
    obtain ⟨g, hg, hs⟩ := writes.stack_eq hn top
    exact ⟨g, hg, congrArg List.length hs⟩

end Replaces

theorem writeIndirect_back (hr : readIndirect n c = .ok v c) (hw : writeIndirect n w c = .ok () d)
    (apart : 0x0E ≤ c.memory.globalVariables.toNat) : writeIndirect n v d = .ok () c := by
  cases replaces_of_writeIndirect hw with
  | @top f rest old stack hn top held =>
    obtain ⟨memory, pristine, _⟩ := c
    cases top
    have hold : old = v := by
      have hpeek : f.peek = .ok old := by rw [Frame.peek, held]
      rw [readIndirect, if_pos hn, peek, onTop_ok rfl (reading_ok hpeek)] at hr
      cases hr
      rfl
    subst hold
    rw [writeIndirect, if_pos hn]
    change EStateM.Result.ok () _ = _
    rw [← held]
  | cell hn writes =>
    rw [readIndirect, if_neg hn] at hr
    have hvalue : value n c = .ok v := by rw [value, hr]
    rw [writeIndirect, if_neg hn, writeVariable, if_neg hn]
    cases writes with
    | push zero => exact absurd zero hn
    | @toLocal f rest _ small top =>
      obtain ⟨memory, pristine, _⟩ := c
      cases top
      rw [value_local rfl hn small] at hvalue
      cases hvalue
      rw [if_pos small]
      change EStateM.Result.ok () _ = _
      rw [Frame.writeLocal_back]
    | toGlobal large changes word =>
      -- The word has been written in the same place, as the globals have not moved.
      rw [value_global large] at hvalue
      have inside := Memory.word_inside hvalue
      have hset := Memory.setWord_of_changesAt v changes inside
      rw [Memory.setWord_self hvalue, ← place_of_changesAt changes apart, ← writeGlobal_eq large] at hset
      rw [if_neg large, onMemory_ok hset]

theorem Quiet.frames_below (h : Quiet c d) (top : c.frames = f :: rest) : ∃ g, d.frames = g :: rest := by
  have hw := h.frames
  rw [top] at hw
  obtain ⟨g, hg, -⟩ := CallStack.Works.of_cons hw
  exact ⟨g, hg⟩

end Core

namespace Machine

open ZMachine.Core

variable {η : Type} {s t : Machine η} {f : Frame} {rest : CallStack} {n : UInt8} {x y : Int16}

theorem ok_of_onCore {α : Type} {act : Action Core α} {a : α} (h : onCore act s = .ok a t) :
    ∃ c, act s.core = .ok a c ∧ t = { s with core := c } := by
  cases hs : act s.core with
  | ok a' c =>
    cases (onCore_ok hs).symm.trans h
    exact ⟨c, rfl, rfl⟩
  | error e c => cases (onCore_error hs).symm.trans h

theorem adjust_of_ok {v : UInt16} {d : Core} (hr : readIndirect n s.core = .ok v s.core)
    (hw : writeIndirect n (v.toInt16 + x).toUInt16 s.core = .ok () d) :
    adjust n x s = .ok (v.toInt16 + x) { s with core := d } := by
  rw [adjust, bind_ok _ (onCore_ok hr), bind_ok _ (onCore_ok (s := s) hw)]
  rfl

theorem ok_of_adjust (h : adjust n x s = .ok y t) :
    ∃ v d, readIndirect n s.core = .ok v s.core ∧
      writeIndirect n (v.toInt16 + x).toUInt16 s.core = .ok () d ∧ t = { s with core := d } := by
  obtain ⟨v, s', hread, h⟩ := ok_of_bind_ok h
  obtain ⟨c, hr, rfl⟩ := ok_of_onCore hread
  obtain ⟨⟨⟩, t', hwrite, h⟩ := ok_of_bind_ok h
  obtain ⟨d, hw, rfl⟩ := ok_of_onCore hwrite
  cases h
  have hstate : s.core = c := readIndirect_state.of_ok hr
  subst hstate
  exact ⟨v, d, hr, hw, rfl⟩

theorem adjust_back (h : adjust n x s = .ok y t) (apart : 0x0E ≤ s.core.memory.globalVariables.toNat) :
    ∃ z, adjust n (-x) t = .ok z s := by
  obtain ⟨v, d, hr, hw, rfl⟩ := ok_of_adjust h
  have hagain : readIndirect n d = .ok (v.toInt16 + x).toUInt16 d :=
    (replaces_of_writeIndirect hw).readIndirect_eq apart
  have hback : writeIndirect n v d = .ok () s.core := writeIndirect_back hr hw apart
  have hsum : (v.toInt16 + x).toUInt16.toInt16 + -x = v.toInt16 := by
    rw [Int16.toInt16_toUInt16, Int16.add_assoc, Int16.add_right_neg, Int16.add_zero]
  have hv : ((v.toInt16 + x).toUInt16.toInt16 + -x).toUInt16 = v := by rw [hsum, UInt16.toUInt16_toInt16]
  rw [← hv] at hback
  exact ⟨_, adjust_of_ok (s := { s with core := d }) hagain hback⟩

/-- The change that an instruction makes to the variable that its first operand names. -/
def counts? (i : Instruction) : Option Int16 :=
  match i.mnemonic with
  | .inc => some 1
  | .dec => some (-1)
  | _ => none

variable [Host η] {i : Instruction} {operands : List UInt16}

theorem executeMath_of_counts (h : counts? i = some x) :
    (executeMath i operands : Action (Machine η) Outcome) = do
      let _ ← adjust (operands.getD 0 0).toUInt8 x
      return .proceeded := by
  unfold counts? at h
  split at h
  · next hi =>
    cases h
    rw [executeMath, hi]
  · next hi =>
    cases h
    rw [executeMath, hi]
  · cases h

/-- The variables of a routine, whatever it does with them. -/
theorem variables_are_cells (top : s.core.frames = f :: rest)
    (apart : 0x0E ≤ s.core.memory.globalVariables.toNat) (n : UInt8) (v : UInt16) :
    (∀ d, writeVariable n v s.core = .ok () d →
      readVariable n d = .ok v (if n = 0 then s.core else d) ∧
        (∀ k, k ≠ 0 → k ≠ n → value k d = value k s.core) ∧
        (n ≠ 0 → ∃ g, d.frames = g :: rest ∧ g.stack = f.stack)) ∧
    (∀ d, writeIndirect n v s.core = .ok () d → readIndirect n d = .ok v d) ∧
    (∃ g, (ending (writeIndirect n v s.core)).frames = g :: rest ∧ g.stack.length = f.stack.length) ∧
    ending (readIndirect n s.core) = s.core ∧
    (∃ g, (ending (writeVariable n v s.core)).frames = g :: rest) ∧
    (∃ g, (ending (readVariable n s.core)).frames = g :: rest) ∧
    ∀ i j first second x o t, counts? i = some x → counts? j = some (-x) →
      (first.getD 0 0).toUInt8 = n → (second.getD 0 0).toUInt8 = n →
      executeMath i first s = .ok o t → executeMath j second t = .ok .proceeded s := by
  refine ⟨fun d h => ?_, fun d h => ?_, ?_, ?_, ?_, ?_, ?_⟩
  · have hw := writes_of_writeVariable h
    refine ⟨?_, fun k hk hne => hw.value_other apart top hk hne, fun hn => hw.stack_eq hn top⟩
    split
    · next hn => exact hw.readVariable_back hn
    · next hn => exact readVariable_of_value hn (hw.value_self hn apart)
  · exact (replaces_of_writeIndirect h).readIndirect_eq apart
  · obtain ⟨d, hd, hr⟩ | ⟨e, he⟩ := writeIndirect_cases n v s.core
    · rw [hd]
      exact hr.depth_eq top
    · rw [he]
      exact ⟨f, top, rfl⟩
  · exact (readIndirect_state s.core).symm
  · exact (writeVariable_quiet s.core).frames_below top
  · exact (readVariable_quiet s.core).frames_below top
  · intro i j first second x o t hi hj hfirst hsecond h
    rw [executeMath_of_counts hi, hfirst] at h
    obtain ⟨y, t', hadjust, h⟩ := ok_of_bind_ok h
    cases h
    obtain ⟨z, hback⟩ := adjust_back hadjust apart
    rw [executeMath_of_counts hj, hsecond, bind_ok _ hback]
    rfl

def crowdedMachine : Machine Playback :=
  -- The globals follow the word that tells where they are, and there is a value on the stack.
  let memory : Memory := ⟨⟨List.replicate 12 0 ++ 0 :: 14 :: List.replicate 50 0⟩, by simp, by simp⟩
  { core := ⟨memory, memory, [{ pc := 60, stack := [0xFFFF] }]⟩, version := 5, host := {} }

def countingInstruction (raw : UInt8) : Instruction :=
  { address := 60, descriptor := .normal 5 raw, operands := [], store := none, branch := none, text := none,
    next := 62 }

theorem variables_are_cells_crowded :
    (∃ d, writeVariable 16 7 crowdedMachine.core = .ok () d ∧ readVariable 16 d = .ok 7 d ∧
      value 17 d = .ok 0) ∧
    ∃ t, executeMath (countingInstruction 0x95) [0] crowdedMachine = .ok .proceeded t ∧
      (∃ g, t.core.frames = [g] ∧ g.stack = [0]) ∧
      executeMath (countingInstruction 0x96) [0] t = .ok .proceeded crowdedMachine := by
  constructor
  · obtain ⟨hwrite, -⟩ := variables_are_cells (s := crowdedMachine) rfl (by decide) 16 7
    obtain ⟨hread, hothers, -⟩ := hwrite _ rfl
    exact ⟨_, rfl, hread, hothers 17 (by decide) (by decide)⟩
  · obtain ⟨-, -, -, -, -, -, hcount⟩ := variables_are_cells (s := crowdedMachine) rfl (by decide) 0 0
    have up : executeMath (countingInstruction 0x95) [0] crowdedMachine =
        .ok .proceeded (ending (executeMath (countingInstruction 0x95) [0] crowdedMachine)) := rfl
    have back := hcount (countingInstruction 0x95) (countingInstruction 0x96) [0] [0] 1 _ _ rfl rfl rfl rfl up
    exact ⟨_, up, ⟨_, rfl, rfl⟩, back⟩

end Machine

end ZMachine
