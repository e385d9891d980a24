import ZMachine.Proofs.Instruction.Shape
import ZMachine.Proofs.Machine.Invariant
import ZMachine.Proofs.Memory.Access

/-!
A restart is a boot on the same image. The two lowest bits of the second flags are carried over;
as nothing else that boot reads depends on them, each part of it maps memories that differ in
these bits only to such memories.
-/

namespace ZMachine

theorem merge_and (w flags mask : UInt16) (h : mask &&& 3 = 3) :
    ((w &&& ~~~3) ||| (flags &&& 3)) &&& mask = ((w &&& mask) &&& ~~~3) ||| (flags &&& 3) := by
  have distrib (x y : UInt16) : (x ||| y) &&& mask = (x &&& mask) ||| (y &&& mask) := by
    apply UInt16.eq_of_toBitVec_eq
    simp [BitVec.and_or_distrib_right]
  have low : (flags &&& 3) &&& mask = flags &&& 3 := by
    rw [UInt16.and_assoc, UInt16.and_comm 3, h]
  have high : (w &&& ~~~3) &&& mask = (w &&& mask) &&& ~~~3 := by
    rw [UInt16.and_assoc, UInt16.and_comm (~~~3), ← UInt16.and_assoc]
  rw [distrib, low, high]

theorem highByte_merge (w flags : UInt16) :
    highByte ((w &&& ~~~3) ||| (flags &&& 3)) = highByte w := by
  have shifted (x : UInt16) : (highByte x).toNat = x.toNat >>> 8 := by
    have := x.toNat_lt
    rw [highByte, UInt8.toNat_ofNat', Nat.shiftRight_eq_div_pow]
    omega
  have small : w.toNat >>> 8 &&& 255 = w.toNat >>> 8 := by
    have hw := (highByte w).toNat_lt
    rw [shifted] at hw
    exact (Nat.and_two_pow_sub_one_eq_mod _ 8).trans (Nat.mod_eq_of_lt hw)
  apply UInt8.toNat_inj.1
  rw [shifted, shifted]
  simpa [Nat.shiftRight_and_distrib, Nat.shiftRight_or_distrib] using small

theorem highByte_ofBytes16 (high low : UInt8) : highByte (ofBytes16 high low) = high := by
  apply UInt8.toNat_inj.1
  have hh := high.toNat_lt
  have hl := low.toNat_lt
  simp only [highByte, toNat_ofBytes16, UInt8.toNat_ofNat']
  omega

namespace Memory

theorem one_le_version {image : Array UInt8} {m : Memory} (h : load image = .ok m) :
    1 ≤ m.version := by
  unfold load at h
  dsimp only at h
  split at h
  · cases h
  · split at h
    · cases h
    · next known =>
      split at h
      · cases h
      · cases h
        have hv := UInt8.not_lt.mp (not_or.mp known).1
        rwa [Array.getD_eq_getD_getElem?, Array.getElem?_eq_getElem] at hv

theorem byte_headerByte (m : Memory) (k : Fin 64) : m.byte k.val = .ok (m.headerByte k) :=
  dif_pos (Nat.lt_of_lt_of_le k.isLt m.header_le)

theorem word_headerWord (m : Memory) (k : Fin 63) : m.word k.val = .ok (m.headerWord k) := by
  have := m.header_le
  exact dif_pos (by omega)

theorem headerWord_congr {m n : Memory} {k : Fin 63} (hs : m.SameSize n)
    (hh : n.byte k.val = m.byte k.val) (hl : n.byte (k.val + 1) = m.byte (k.val + 1)) :
    n.headerWord k = m.headerWord k := by
  have hw := word_congr hs hh hl
  rw [word_headerWord, word_headerWord] at hw
  exact Except.ok.inj hw

theorem byte_setHeaderWord (m : Memory) (k : Fin 63) (w : UInt16) (a : Nat) :
    (m.setHeaderWord k w).byte a =
      if a = k.val + 1 then .ok (lowByte w) else if a = k.val then .ok (highByte w) else m.byte a := by
  rw [setHeaderWord, byte_set, byte_set]

theorem byte_setFlags2 (m : Memory) (w : UInt16) {a : Nat} (ha : a ≠ 0x11) :
    (m.setFlags2 w).byte a = if a = 0x10 then .ok (highByte w) else m.byte a :=
  (byte_setHeaderWord m 0x10 w a).trans (if_neg ha)

theorem flags2_setFlags2 (m : Memory) (w : UInt16) : (m.setFlags2 w).flags2 = w := by
  have hw := word_of_bytes (m := m.setFlags2 w) (a := 0x10) (byte_setHeaderWord m 0x10 w 0x10)
    (byte_setHeaderWord m 0x10 w 0x11)
  rw [ofBytes16_high_low] at hw
  exact Except.ok.inj ((word_headerWord _ 0x10).symm.trans hw)

theorem even_unpackRoutine (m : Memory) (packed : UInt16) : m.unpackRoutine packed % 2 = 0 := by
  have even : (packingRule m.version).multiplier % 2 = 0 := by
    unfold packingRule
    split
    · rfl
    · split
      · rfl
      · split <;> rfl
  rw [unpackRoutine, unpack, Nat.add_mod, Nat.mul_mod, even]
  split <;> omega

/-- `n` is `m` with the two lowest bits of its second flags taken from `flags`. -/
structure TakesFlags (flags : UInt16) (m n : Memory) : Prop where
  size : m.SameSize n
  byte : ∀ a, a ≠ 0x11 → n.byte a = m.byte a
  flags2 : n.flags2 = (m.flags2 &&& ~~~3) ||| (flags &&& 3)

namespace TakesFlags

variable {flags : UInt16} {m n : Memory}

theorem headerByte (h : TakesFlags flags m n) {k : Fin 64} (hk : k.val ≠ 0x11) :
    n.headerByte k = m.headerByte k := by
  have hb := h.byte k hk
  rw [byte_headerByte, byte_headerByte] at hb
  exact Except.ok.inj hb

theorem headerWord (h : TakesFlags flags m n) {k : Fin 63} (hk : k.val ≠ 0x10 ∧ k.val ≠ 0x11) :
    n.headerWord k = m.headerWord k :=
  headerWord_congr h.size (h.byte k hk.2) (h.byte (k.val + 1) (by omega))

theorem setHeaderByte (h : TakesFlags flags m n) {k : Fin 64} (v : UInt8)
    (hk : k.val ≠ 0x10 ∧ k.val ≠ 0x11) :
    TakesFlags flags (m.setHeaderByte k v) (n.setHeaderByte k v) := by
  have flags2 (p : Memory) : (p.setHeaderByte k v).flags2 = p.flags2 := by
    have hw := word_congr (m := p) (n := p.setHeaderByte k v) (a := 0x10) (size_setHeaderByte ..)
      (by rw [Memory.setHeaderByte, byte_set, if_neg (by omega)])
      (by rw [Memory.setHeaderByte, byte_set, if_neg (by omega)])
    exact Except.ok.inj ((word_headerWord _ 0x10).symm.trans (hw.trans (word_headerWord p 0x10)))
  refine ⟨?_, fun a ha => ?_, ?_⟩
  · rw [SameSize, size_setHeaderByte, size_setHeaderByte]
    exact h.size
  · rw [Memory.setHeaderByte, Memory.setHeaderByte, byte_set, byte_set, h.byte a ha]
  · rw [flags2, flags2, h.flags2]

theorem setHeaderWord (h : TakesFlags flags m n) {k : Fin 63} (w : UInt16)
    (hk : k.val + 1 < 0x10 ∨ 0x11 < k.val) :
    TakesFlags flags (m.setHeaderWord k w) (n.setHeaderWord k w) := by
  have flags2 (p : Memory) : (p.setHeaderWord k w).flags2 = p.flags2 :=
    p.headerWord_setHeaderWord w hk.symm
  refine ⟨?_, fun a ha => ?_, ?_⟩
  · rw [SameSize, size_setHeaderWord, size_setHeaderWord]
    exact h.size
  · rw [byte_setHeaderWord, byte_setHeaderWord, h.byte a ha]
  · rw [flags2, flags2, h.flags2]

theorem setFlags2 (h : TakesFlags flags m n) (w : UInt16) :
    TakesFlags flags (m.setFlags2 w) (n.setFlags2 ((w &&& ~~~3) ||| (flags &&& 3))) := by
  refine ⟨?_, fun a ha => ?_, ?_⟩
  · rw [SameSize, Memory.setFlags2, Memory.setFlags2, size_setHeaderWord, size_setHeaderWord]
    exact h.size
  · rw [byte_setFlags2 _ _ ha, byte_setFlags2 _ _ ha, highByte_merge, h.byte a ha]
  · rw [flags2_setFlags2, flags2_setFlags2]

theorem maskFlags2 (h : TakesFlags flags m n) {mask : UInt16} (hm : mask &&& 3 = 3) :
    TakesFlags flags (m.setFlags2 (m.flags2 &&& mask)) (n.setFlags2 (n.flags2 &&& mask)) := by
  rw [h.flags2, merge_and _ _ _ hm]
  exact h.setFlags2 _

theorem version (h : TakesFlags flags m n) : n.version = m.version := h.headerByte (by decide)

theorem mainFrame (h : TakesFlags flags m n) : Core.mainFrame n = Core.mainFrame m := by
  -- The routine that a story starts in is at an even address, so that it is not read from the byte
  -- that differs.
  have initialPc : n.initialPc = m.initialPc := h.headerWord (by decide)
  have offset : n.routinesOffset = m.routinesOffset := h.headerWord (by decide)
  have entry : n.unpackRoutine m.initialPc = m.unpackRoutine m.initialPc := by
    rw [unpackRoutine, unpackRoutine, unpack, unpack, h.version, offset]
  have even := m.even_unpackRoutine m.initialPc
  unfold Core.mainFrame
  rw [h.version, initialPc, entry]
  dsimp only
  rw [h.byte _ (by omega)]

end TakesFlags

theorem restored_takesFlags (m : Memory) (flags : UInt16) :
    TakesFlags flags m (Core.restored m flags) := by
  refine ⟨size_setHeaderWord .., fun a ha => ?_, flags2_setFlags2 ..⟩
  rw [Core.restored, byte_setFlags2 _ _ ha, highByte_merge]
  split
  · next h =>
    subst h
    exact (congrArg Except.ok (highByte_ofBytes16 ..)).trans (byte_headerByte m 0x10).symm
  · rfl

end Memory

open Memory

namespace Machine

theorem publish_takesFlags {flags : UInt16} {m n : Memory} (version : UInt8)
    (screen : Screen.Capabilities) (h : TakesFlags flags m n) :
    TakesFlags flags (publish version screen m) (publish version screen n) := by
  have revision := h.setHeaderWord (k := 0x32) 0x0101 (by decide)
  have flags1 : (n.setHeaderWord 0x32 0x0101).flags1 = (m.setHeaderWord 0x32 0x0101).flags1 :=
    revision.headerByte (by decide)
  by_cases early : version ≤ 3
  · have small : version < 5 := UInt8.lt_of_le_of_lt early (by decide)
    simp only [publish, early, small, ↓reduceIte, flags1]
    exact revision.setHeaderByte _ (by decide)
  · have screenSize := (((revision.setHeaderByte (k := 0x1E) 6 (by decide)).setHeaderByte
      (k := 0x1F) 65 (by decide)).setHeaderByte (k := 0x20) (byteOf screen.lines)
      (by decide)).setHeaderByte (k := 0x21) (byteOf screen.columns) (by decide)
    have styled (v : UInt8) := screenSize.setHeaderByte (k := 0x01) v (by decide)
    by_cases small : version < 5
    · simp only [publish, early, small, ↓reduceIte, flags1]
      exact styled _
    · have units (v c d : UInt8) := ((((styled v).setHeaderWord (k := 0x22)
        (saturatingMul screen.columns screen.characterWidth) (by decide)).setHeaderWord (k := 0x24)
        (saturatingMul screen.lines screen.lineHeight) (by decide)).setHeaderByte (k := 0x26) c
        (by decide)).setHeaderByte (k := 0x27) d (by decide)
      simp only [publish, early, small, ↓reduceIte, flags1]
      exact (units _ _ _).maskFlags2 (by decide)

variable {η : Type}

def SameStory (s t : Machine η) : Prop :=
  t.version = s.version ∧ t.core.pristine = s.core.pristine

instance : IsPreorder (Machine η) SameStory where
  refl _ := ⟨rfl, rfl⟩
  trans _ _ _ h h' := ⟨h'.1.trans h.1, h'.2.trans h.2⟩

section Host

variable [Host η] {image : Array UInt8} {s t : Machine η}

theorem restart_sameStory : Leads SameStory (restart : Action (Machine η) Unit) := by
  refine .bind (fun s => ?_) fun _ => .bind (fun s => ⟨rfl, rfl⟩) fun _ s => ⟨rfl, rfl⟩
  unfold onCore Core.reset
  dsimp only
  cases Core.mainFrame (Core.restored s.core.pristine s.core.memory.flags2) <;> exact ⟨rfl, rfl⟩

theorem after_sameStory (s : Machine η) : SameStory s s.after := by
  cases hu : s.upcoming with
  | error e =>
    rw [after_of_no_upcoming hu]
    exact refl s
  | ok i =>
    obtain ⟨quit, ha⟩ := after_of_upcoming hu
    rw [ha]
    exact execute_leads (fun _ _ q => ⟨q.version, q.core.pristine⟩) (fun _ _ => ⟨rfl, rfl⟩)
      (fun _ _ => ⟨rfl, rfl⟩) restart_sameStory (s.fetched i.next)

theorem Reachable.story (h : Reachable image s) :
    Memory.load image = .ok s.core.pristine ∧ s.version = s.core.pristine.version := by
  induction h with
  | boot h =>
    obtain ⟨m, hm, h⟩ := ok_of_bind_except h
    obtain ⟨c, hc, h⟩ := ok_of_bind_except h
    obtain ⟨f, _, hc⟩ := ok_of_bind_except hc
    cases h
    cases hc
    exact ⟨hm, rfl⟩
  | @step s _ ih =>
    obtain ⟨version, pristine⟩ := after_sameStory s
    rw [version, pristine]
    exact ih

theorem boot_of_load {m : Memory} {f : Frame} (hm : Memory.load image = .ok m)
    (hf : Core.mainFrame m = .ok f) (host : η) :
    boot image host = .ok (start ⟨m, m, [f]⟩ host) := by
  unfold boot Core.boot
  rw [hm]
  simp only [bind, Except.bind, hf]
  rfl

def restarted (main : Frame) (s : Machine η) : Machine η :=
  { s with
    core := ⟨publish s.version (Host.capabilities s.host)
      (Core.restored s.core.pristine s.core.memory.flags2), s.core.pristine, [main]⟩
    streams := { s.streams with tables := [] }
    undo := [] }

theorem restart_ok {main : Frame} (h : Core.mainFrame s.core.pristine = .ok main) :
    restart s = .ok () (s.restarted main) := by
  have hm : Core.mainFrame (Core.restored s.core.pristine s.core.memory.flags2) = .ok main :=
    (restored_takesFlags ..).mainFrame.trans h
  have hr : Core.reset s.core =
      .ok () ⟨Core.restored s.core.pristine s.core.memory.flags2, s.core.pristine, [main]⟩ := by
    simp only [Core.reset, hm]
  rw [restart, bind_ok _ (onCore_ok hr)]
  rfl

theorem execute_restart {i : Instruction} (again : i.mnemonic = .restart) (none : i.operands = [])
    (old : i.descriptor.minVersion ≤ s.version) :
    execute i s = (do restart; return .proceeded : Action (Machine η) Outcome) s := by
  have hr : resolveOperands i.operands s = .ok [] s := by
    rw [none]
    rfl
  rw [execute_of_family hr old (by rw [again]; rfl)]
  change executeControl i [] s = _
  unfold executeControl
  rw [again]

theorem step_restart (h : Reachable image s) {i : Instruction} (hu : s.upcoming = .ok i)
    (again : i.mnemonic = .restart) :
    ∃ main, Core.mainFrame s.core.pristine = .ok main ∧
      step s = .ok .proceeded ((s.fetched i.next).restarted main) := by
  obtain ⟨hm, hv⟩ := h.story
  obtain ⟨main, hf⟩ := h.sound.main
  obtain ⟨pc, -, hi⟩ := pc_of_upcoming hu
  have shape := Memory.instruction_shaped hi
  obtain ⟨form, since⟩ := shape.controlled.restart again
  have old : i.descriptor.minVersion ≤ s.version := by
    rw [since, hv]
    exact Memory.one_le_version hm
  let u := s.fetched i.next
  have hx : execute i u = .ok .proceeded (u.restarted main) := by
    rw [execute_restart (s := u) again (shape.none form) old, bind_ok _ (restart_ok (s := u) hf)]
    rfl
  exact ⟨main, hf, step_of_ok hu hx (by decide)⟩

theorem restart_is_boot (h : Reachable image s) {i : Instruction} (hu : s.upcoming = .ok i)
    (again : i.mnemonic = .restart) {host : η}
    (same : Host.capabilities host = Host.capabilities s.host) :
    ∃ fresh t, boot image host = .ok fresh ∧ step s = .ok .proceeded t ∧
      TakesFlags s.core.memory.flags2 fresh.core.memory t.core.memory ∧
      t.core.frames = fresh.core.frames ∧ t.core.frames.length = 1 ∧ t.streams.tables = [] ∧
      t.undo = [] := by
  obtain ⟨hm, hv⟩ := h.story
  obtain ⟨main, hf, hs⟩ := step_restart h hu again
  refine ⟨_, _, boot_of_load hm hf host, hs, ?_, rfl, rfl, rfl, rfl⟩
  change TakesFlags s.core.memory.flags2
    (publish s.core.pristine.version (Host.capabilities host) s.core.pristine)
    (publish s.version (Host.capabilities s.host)
      (Core.restored s.core.pristine s.core.memory.flags2))
  rw [same, hv]
  exact publish_takesFlags _ _ (restored_takesFlags ..)

def forgetfulStory : Array UInt8 :=
  -- Overwrites its version, then starts again.
  #[3, 0, 0, 0, 0, 0, 0, 0x40] ++ Array.replicate 56 0 ++ #[0xE2, 0x57, 0, 0, 9, 0xB7]

def forgetfulMachine : Machine Playback :=
  let memory : Memory := ⟨forgetfulStory, by decide, by decide⟩
  start ⟨memory, memory, [{ pc := 0x40 }]⟩ {}

theorem boot_forgetfulStory : boot forgetfulStory ({} : Playback) = .ok forgetfulMachine := rfl

theorem restart_is_boot_forgetful :
    forgetfulMachine.after.core.memory.version = 9 ∧
      ∃ fresh t, boot forgetfulStory ({} : Playback) = .ok fresh ∧
        step forgetfulMachine.after = .ok .proceeded t ∧
        TakesFlags forgetfulMachine.after.core.memory.flags2 fresh.core.memory t.core.memory ∧
        t.core.frames = fresh.core.frames ∧ t.core.frames.length = 1 ∧ t.streams.tables = [] ∧
        t.undo = [] :=
  ⟨rfl, restart_is_boot (.step (.boot boot_forgetfulStory)) rfl rfl rfl⟩

end Host

end Machine

end ZMachine
