import Mathlib.Data.List.GetD
import ZMachine.Proofs.Machine.Restart
import ZMachine.Proofs.Machine.TextBuffer
import ZMachine.Proofs.Story.Image

namespace ZMachine

namespace Memory

variable {m : Memory} {a n i : Nat} {w : UInt16} {ws : List UInt16}

theorem version_of_getElem? {v : UInt8} (h : m.bytes[0]? = some v) : m.version = v := by
  have hbyte : m.byte 0 = .ok m.version := byte_headerByte m 0
  rw [byte_eq_ok_iff.2 h] at hbyte
  exact (Except.ok.inj hbyte).symm

theorem Stores.word (h : m.Stores a ws) (hi : ws[i]? = some w) : m.word (a + 2 * i) = .ok w := by
  induction ws generalizing a i with
  | nil => simp at hi
  | cons v ws ih =>
    cases i with
    | zero =>
      cases hi
      exact h.1
    | succ i =>
      rw [show a + 2 * (i + 1) = a + 2 + 2 * i by omega]
      exact ih h.2 hi

theorem word_of_shows (h : m.Shows a (Story.bytesOf w)) : m.word a = .ok w := by
  obtain ⟨hhigh, hlow, -⟩ := h
  rw [word_of_bytes hhigh hlow, ofBytes16_high_low]

theorem stores_of_shows (h : m.Shows a (ws.flatMap Story.bytesOf)) : m.Stores a ws := by
  induction ws generalizing a with
  | nil => trivial
  | cons w ws ih =>
    obtain ⟨hhigh, hlow, hrest⟩ := h
    exact ⟨word_of_shows ⟨hhigh, hlow, trivial⟩, ih hrest⟩

theorem words_of_le (h : a + 2 * n ≤ m.bytes.size) :
    ∃ ws, m.words a n = .ok ws ∧ ws.length = n ∧ m.Stores a ws := by
  induction n generalizing a with
  | zero => exact ⟨[], rfl, rfl, trivial⟩
  | succ n ih =>
    obtain ⟨w, hw⟩ := word_of_lt (m := m) (a := a) (by omega)
    obtain ⟨ws, hws, hlen, hstores⟩ := ih (a := a + 2) (by omega)
    refine ⟨w :: ws, ?_, by rw [List.length_cons, hlen], hw, hstores⟩
    rw [words, hw, hws]
    rfl

theorem le_of_words (ha : a ≤ m.bytes.size) (h : m.words a n = .ok ws) : a + 2 * n ≤ m.bytes.size := by
  induction n generalizing a ws with
  | zero => exact ha
  | succ n ih =>
    obtain ⟨w, hw, h⟩ := ok_of_bind_except h
    obtain ⟨rest, hrest, -⟩ := ok_of_bind_except h
    have := ih (word_inside hw) hrest
    omega

end Memory

namespace Machine

/-- There is a routine with `n` locals at `r`. -/
structure RoutineAt (version : UInt8) (m : Memory) (r : Nat) (n : UInt8) : Prop where
  count : m.byte r = .ok n
  few : n ≤ 15
  header : version < 5 → r + 1 + 2 * n.toNat ≤ m.size

/-- The frame of a routine that was just entered. -/
structure Enters (version : UInt8) (m : Memory) (r : Nat) (n : UInt8) (args : List UInt16)
    (store : Option UInt8) (f : Frame) : Prop where
  pc : f.pc = r + 1 + if version < 5 then 2 * n.toNat else 0
  numLocals : f.numLocals = n
  argument : ∀ i v, i < n.toNat → args[i]? = some v → f.readLocal i = v
  initial : version < 5 → ∀ i, args.length ≤ i → i < n.toNat → m.word (r + 1 + 2 * i) = .ok (f.readLocal i)
  blank : ¬ version < 5 → ∀ i, args.length ≤ i → f.readLocal i = 0
  unused : ∀ i, n.toNat ≤ i → f.readLocal i = 0
  stack : f.stack = []
  arity : f.arity.toNat = args.length
  storeTo : f.storeTo = store

section Frames

variable {version n : UInt8} {m : Memory} {r i : Nat} {args initial : List UInt16} {store : Option UInt8}
  {f : Frame}

theorem getD_bindLocals (hn : n ≤ 15) (args initial : List UInt16) (i : Nat) :
    (bindLocals n.toNat args initial)[i]?.getD 0 =
      if i < n.toNat then args.getD i (initial.getD i 0) else 0 := by
  have hn' : n.toNat ≤ 15 := UInt8.le_iff_toNat_le.1 hn
  rw [bindLocals, Vector.getElem?_ofFn]
  by_cases hi : i < 16
  · rw [dif_pos hi]
    rfl
  · rw [dif_neg hi, if_neg (by omega)]
    rfl

theorem enters_of_initial (initial : List UInt16) (few : args.length ≤ 7) (hn : n ≤ 15)
    (hearly : version < 5 → initial.length = n.toNat ∧ m.Stores (r + 1) initial)
    (hlate : ¬ version < 5 → initial = []) :
    Enters version m r n args store {
      pc := r + 1 + 2 * initial.length
      locals := bindLocals n.toNat args initial
      numLocals := n
      arity := UInt8.ofNat args.length
      storeTo := store } where
  pc := by
    by_cases hv : version < 5
    · rw [if_pos hv, (hearly hv).1]
    · rw [if_neg hv, hlate hv]
      rfl
  numLocals := rfl
  argument i v hi hv := by
    rw [Frame.readLocal, getD_bindLocals hn, if_pos hi, List.getD_eq_getElem?_getD, hv]
    rfl
  initial hv i hi hi' := by
    obtain ⟨hlen, hstores⟩ := hearly hv
    have hget : initial[i]? = some (initial.getD i 0) := by
      rw [List.getD_eq_getElem?_getD, List.getElem?_eq_getElem (by omega)]
      rfl
    rw [Frame.readLocal, getD_bindLocals hn, if_pos hi', List.getD_eq_default _ _ hi]
    exact hstores.word hget
  blank hv i hi := by
    rw [Frame.readLocal, getD_bindLocals hn, hlate hv, List.getD_eq_default _ _ hi, List.getD_nil, ite_self]
  unused i hi := by
    rw [Frame.readLocal, getD_bindLocals hn, if_neg (by omega)]
  stack := rfl
  arity := UInt8.toNat_ofNat_of_lt' (show args.length < 256 by omega)
  storeTo := rfl

theorem routineFrame_of_routineAt (h : RoutineAt version m r n) (few : args.length ≤ 7)
    (store : Option UInt8) :
    ∃ f, routineFrame version r args store m = .ok f ∧ Enters version m r n args store f := by
  have hn : ¬ Core.maxLocals < n := UInt8.not_lt.2 h.few
  by_cases hv : version < 5
  · obtain ⟨initial, hwords, hlen, hstores⟩ := Memory.words_of_le (h.header hv)
    refine ⟨_, ?_, enters_of_initial initial few h.few (fun _ => ⟨hlen, hstores⟩) fun hv' => absurd hv hv'⟩
    simp only [routineFrame, h.count, bind, Except.bind, if_neg hn, if_pos hv, hwords]
    rfl
  · refine ⟨_, ?_, enters_of_initial [] few h.few (fun hv' => absurd hv' hv) fun _ => rfl⟩
    simp only [routineFrame, h.count, bind, Except.bind, if_neg hn, if_neg hv]
    rfl

theorem routineAt_of_routineFrame (h : routineFrame version r args store m = .ok f) :
    ∃ n, RoutineAt version m r n := by
  obtain ⟨n, hcount, h⟩ := ok_of_bind_except h
  dsimp only at h
  by_cases hn : Core.maxLocals < n
  · rw [if_pos hn] at h
    cases h
  · rw [if_neg hn] at h
    refine ⟨n, hcount, UInt8.not_lt.1 hn, fun hv => ?_⟩
    rw [if_pos hv] at h
    obtain ⟨ws, hws, -⟩ := ok_of_bind_except h
    exact Memory.le_of_words (Memory.byte_inside hcount) hws

end Frames

section Calls

variable {η : Type} {s : Machine η} {packed : UInt16} {args : List UInt16} {store : Option UInt8}

theorem call_eq (hp : packed ≠ 0) :
    call packed args store s =
      match routineFrame s.version (s.core.memory.unpackRoutine packed) args store s.core.memory with
      | .error e => .error e s
      | .ok f =>
        if s.core.depth < 1024 then .ok .called (s.withFrames (f :: s.core.frames))
        else .error (.stackOverflow 1024) s := by
  let enter := fun m : Memory => routineFrame s.version (m.unpackRoutine packed) args store m
  rw [call, if_neg hp, bind_get]
  cases hf : routineFrame s.version (s.core.memory.unpackRoutine packed) args store s.core.memory with
  | error e => exact bind_error _ (readMemory_error (f := enter) hf)
  | ok f =>
    rw [bind_ok _ (readMemory_ok (f := enter) hf)]
    by_cases room : s.core.depth < 1024
    · have hpush : CallStack.push f s.core.frames = .ok () (f :: s.core.frames) := if_neg (Nat.not_le.2 room)
      rw [bind_ok _ (onCore_ok (Core.onFrames_ok hpush))]
      exact (if_pos room).symm
    · have hpush : CallStack.push f s.core.frames = .error (.stackOverflow 1024) s.core.frames :=
        if_pos (Nat.not_lt.1 room)
      rw [bind_error _ (onCore_error (Core.onFrames_error hpush))]
      exact (if_neg room).symm

theorem call_enters {n : UInt8} (hp : packed ≠ 0) (few : args.length ≤ 7)
    (h : RoutineAt s.version s.core.memory (s.core.memory.unpackRoutine packed) n)
    (room : s.core.depth < 1024) (store : Option UInt8) :
    ∃ f, call packed args store s = .ok .called (s.withFrames (f :: s.core.frames)) ∧
      Enters s.version s.core.memory (s.core.memory.unpackRoutine packed) n args store f := by
  obtain ⟨f, hf, henters⟩ := routineFrame_of_routineAt h few store
  refine ⟨f, ?_, henters⟩
  rw [call_eq hp, hf]
  exact if_pos room

theorem call_fails (hp : packed ≠ 0)
    (h : ¬ ((∃ n, RoutineAt s.version s.core.memory (s.core.memory.unpackRoutine packed) n) ∧
      s.core.depth < 1024)) : ∃ e, call packed args store s = .error e s := by
  rw [call_eq hp]
  cases hf : routineFrame s.version (s.core.memory.unpackRoutine packed) args store s.core.memory with
  | error e => exact ⟨e, rfl⟩
  | ok f => exact ⟨_, if_neg fun room => h ⟨routineAt_of_routineFrame hf, room⟩⟩

end Calls

def routineBytes (version : UInt8) (locals : List UInt16) (body : List UInt8) : List UInt8 :=
  UInt8.ofNat locals.length :: (if version < 5 then locals.flatMap Story.bytesOf else []) ++ body

/-- A machine that runs in the version of a draft and has the routine of the draft in its memory. -/
structure HoldsRoutine {η : Type} (d : Story.Draft) (a : Nat) (locals : List UInt16) (body : List UInt8)
    (s : Machine η) : Prop where
  version : s.version = d.version
  live : s.core.memory.version = d.version
  offset : (packingRule d.version).usesOffsets → s.core.memory.routinesOffset = 0
  bytes : ∀ k < (routineBytes d.version locals body).length,
    s.core.memory.bytes[a + k]? = (d.add (.routine a locals body)).image[a + k]?

section Drafts

variable {η : Type} {d : Story.Draft} {a : Nat} {locals : List UInt16} {body : List UInt8} {s : Machine η}

theorem HoldsRoutine.shows (h : HoldsRoutine d a locals body s)
    (room : a + (routineBytes d.version locals body).length ≤ Story.imageSize) :
    s.core.memory.Shows a (routineBytes d.version locals body) := by
  rw [Memory.shows_iff]
  intro i b hb
  have hi : i < (routineBytes d.version locals body).length := (List.getElem?_eq_some_iff.1 hb).1
  have hplaced : (d.add (.routine a locals body)).image[a + i]? = (routineBytes d.version locals body)[i]? :=
    Story.Draft.getElem?_setBytes_inside hi (by omega)
  rw [Memory.byte_eq_ok_iff, h.bytes i hi, hplaced, hb]

theorem packingUnit_eq {version : UInt8} (h : 1 ≤ version) :
    Story.packingUnit version = (packingRule version).multiplier := by
  unfold Story.packingUnit packingRule
  by_cases low : version ≤ 3
  · simp [h, low]
  · have middle : 4 ≤ version := by
      rw [UInt8.le_iff_toNat_le] at low ⊢
      exact Nat.lt_of_not_le low
    by_cases high : version ≤ 7
    · simp only [low, middle, high, and_self, and_false, ↓reduceIte]
      split <;> rfl
    · have late : ¬ version ≤ 5 := fun h5 => high (UInt8.le_trans h5 (by decide))
      simp [low, high, late]

theorem HoldsRoutine.unpack (h : HoldsRoutine d a locals body s) (hversion : 1 ≤ d.version)
    (ha : a < Story.imageSize) (aligned : Story.packingUnit d.version ∣ a) :
    s.core.memory.unpackRoutine (Story.packed d.version a) = a := by
  have hunit := packingUnit_eq hversion
  have hoffset :
      (if (packingRule d.version).usesOffsets then 8 * s.core.memory.routinesOffset.toNat else 0) = 0 := by
    split
    · next huses =>
      rw [h.offset huses]
      rfl
    · rfl
  have hsmall : a / Story.packingUnit d.version < 2 ^ 16 := by
    have := Nat.div_le_self a (Story.packingUnit d.version)
    unfold Story.imageSize at ha
    omega
  rw [Memory.unpackRoutine, Memory.unpack, h.live, hoffset, Nat.add_zero, ← hunit, Story.packed,
    UInt16.toNat_ofNat_of_lt' hsmall, Nat.div_mul_cancel aligned]

theorem toNat_count (few : locals.length ≤ 15) : (UInt8.ofNat locals.length).toNat = locals.length :=
  UInt8.toNat_ofNat_of_lt' (show locals.length < 256 by omega)

theorem HoldsRoutine.laid (h : HoldsRoutine d a locals body s) (few : locals.length ≤ 15)
    (room : a + (routineBytes d.version locals body).length ≤ Story.imageSize) :
    RoutineAt s.version s.core.memory a (UInt8.ofNat locals.length) ∧
      (s.version < 5 → s.core.memory.Stores (a + 1) locals) ∧
      s.core.memory.Shows (a + 1 + if s.version < 5 then 2 * locals.length else 0) body := by
  have hshows := h.shows room
  have hfew : UInt8.ofNat locals.length ≤ 15 := by
    rw [UInt8.le_iff_toNat_le, toNat_count few]
    exact few
  rw [routineBytes, ← h.version, List.cons_append] at hshows
  obtain ⟨hbyte, hrest⟩ := hshows
  obtain ⟨hinitial, hbody⟩ := Memory.shows_append.1 hrest
  by_cases hv : s.version < 5
  · rw [if_pos hv] at hinitial hbody ⊢
    have hinside := hinitial.le_size (Memory.byte_inside hbyte)
    rw [Story.length_flatMap_bytesOf] at hinside hbody
    refine ⟨⟨hbyte, hfew, fun _ => ?_⟩, fun _ => Memory.stores_of_shows hinitial, hbody⟩
    rw [toNat_count few]
    exact hinside
  · rw [if_neg hv] at hbody ⊢
    exact ⟨⟨hbyte, hfew, fun hv' => absurd hv' hv⟩, fun hv' => absurd hv' hv, hbody⟩

theorem HoldsRoutine.call_enters {packed : UInt16} {args : List UInt16} (h : HoldsRoutine d a locals body s)
    (hversion : 1 ≤ d.version) (few : locals.length ≤ 15)
    (room : a + (routineBytes d.version locals body).length ≤ Story.imageSize)
    (aligned : Story.packingUnit d.version ∣ a) (hpacked : packed = Story.packed d.version a)
    (hp : packed ≠ 0) (hargs : args.length ≤ 7) (depth : s.core.depth < 1024) (store : Option UInt8) :
    ∃ f, call packed args store s = .ok .called (s.withFrames (f :: s.core.frames)) ∧
      Enters s.version s.core.memory a (UInt8.ofNat locals.length) args store f ∧
      s.core.memory.Shows f.pc body ∧
      (s.version < 5 → ∀ i, args.length ≤ i → i < locals.length → locals[i]? = some (f.readLocal i)) := by
  have hunpack : s.core.memory.unpackRoutine packed = a := by
    rw [hpacked]
    apply h.unpack hversion _ aligned
    rw [routineBytes, List.cons_append, List.length_cons] at room
    omega
  obtain ⟨hroutine, hstores, hbody⟩ := h.laid few room
  obtain ⟨f, hcall, henters⟩ := Machine.call_enters hp hargs (hunpack ▸ hroutine) depth store
  rw [hunpack] at henters
  refine ⟨f, hcall, henters, ?_, fun hv i hi hi' => ?_⟩
  · rw [henters.pc, toNat_count few]
    exact hbody
  · have hget : locals[i]? = some locals[i] := List.getElem?_eq_getElem hi'
    have hin : i < (UInt8.ofNat locals.length).toNat := by
      rw [toNat_count few]
      exact hi'
    have hword := (hstores hv).word hget
    rw [henters.initial hv i hi hin] at hword
    rw [hget, Except.ok.inj hword]

theorem boot_holdsRoutine [Host η] {host : η} (h : boot (d.add (.routine a locals body)).finish host = .ok s)
    (ha : 64 ≤ a) (hversion : d.image[0]? = some d.version)
    (hoffset : (packingRule d.version).usesOffsets → d.image[0x28]? = some 0 ∧ d.image[0x29]? = some 0) :
    HoldsRoutine d a locals body s := by
  have hkept {b : Nat} (hb : ¬ Published b) (hb' : b < 0x1A ∨ 0x1E ≤ b) (hin : b < 64) :
      s.core.memory.bytes[b]? = d.image[b]? := by
    rw [boot_image h hb hb']
    exact Story.Draft.getElem?_place_outside (by omega)
  obtain ⟨hload, hstarted⟩ := (Reachable.boot h).story
  constructor
  · rw [hstarted]
    apply Memory.version_of_getElem?
    rw [Memory.load_bytes hload, Story.Draft.getElem?_finish (by omega), ← hversion]
    exact Story.Draft.getElem?_place_outside (by omega)
  · apply Memory.version_of_getElem?
    rw [hkept (by unfold Published; omega) (by omega) (by omega), hversion]
  · intro huses
    have hhigh := hkept (b := 0x28) (by unfold Published; omega) (by omega) (by omega)
    have hlow := hkept (b := 0x29) (by unfold Published; omega) (by omega) (by omega)
    rw [(hoffset huses).1] at hhigh
    rw [(hoffset huses).2] at hlow
    have hword := Memory.word_of_bytes (Memory.byte_eq_ok_iff.2 hhigh) (Memory.byte_eq_ok_iff.2 hlow)
    exact Except.ok.inj ((Memory.word_headerWord s.core.memory 0x28).symm.trans hword)
  · intro k _
    apply boot_image h
    · unfold Published
      omega
    · omega

end Drafts

/-- A call succeeds exactly if there is a routine and room for a frame. Its frame binds the arguments,
nothing else changes, and a failed call changes nothing. A routine laid down in a draft starts at its
body. -/
theorem call_binds_arguments {η : Type} [Host η] {image : Array UInt8} {s : Machine η}
    (h : Reachable image s) {packed : UInt16} (hp : packed ≠ 0) {args : List UInt16}
    (few : args.length ≤ 7) (store : Option UInt8) :
    (∀ n, RoutineAt s.version s.core.memory (s.core.memory.unpackRoutine packed) n → s.core.depth < 1024 →
      ∃ f, call packed args store s = .ok .called (s.withFrames (f :: s.core.frames)) ∧
        Enters s.version s.core.memory (s.core.memory.unpackRoutine packed) n args store f) ∧
    (¬ ((∃ n, RoutineAt s.version s.core.memory (s.core.memory.unpackRoutine packed) n) ∧
        s.core.depth < 1024) → ∃ e, call packed args store s = .error e s) ∧
    ∀ (d : Story.Draft) (a : Nat) (locals : List UInt16) (body : List UInt8),
      locals.length ≤ 15 → a + (routineBytes d.version locals body).length ≤ Story.imageSize →
      Story.packingUnit d.version ∣ a → packed = Story.packed d.version a →
      HoldsRoutine d a locals body s → s.core.depth < 1024 →
      ∃ f, call packed args store s = .ok .called (s.withFrames (f :: s.core.frames)) ∧
        Enters s.version s.core.memory a (UInt8.ofNat locals.length) args store f ∧
        s.core.memory.Shows f.pc body ∧
        (s.version < 5 → ∀ i, args.length ≤ i → i < locals.length → locals[i]? = some (f.readLocal i)) := by
  refine ⟨fun n hn room => call_enters hp few hn room store, call_fails hp, ?_⟩
  intro d a locals body hlocals room aligned hpacked holds depth
  have hversion : 1 ≤ d.version := by
    obtain ⟨hload, hstarted⟩ := h.story
    rw [← holds.version, hstarted]
    exact Memory.one_le_version hload
  exact holds.call_enters hversion hlocals room aligned hpacked hp few depth store

def drafted : Story.Draft := (Story.Draft.blank 3).add (.routine 0x3000 [7, 8, 9] [0xB0])

theorem call_binds_arguments_drafted :
    ∃ s : Session, boot drafted.finish ({} : Playback) = .ok s ∧
      ∃ f, call 0x1800 [1] (some 0) s = .ok .called (s.withFrames (f :: s.core.frames)) ∧
        f.pc = 0x3007 ∧ f.readLocal 0 = 1 ∧ f.readLocal 1 = 8 ∧ f.readLocal 2 = 9 ∧ f.readLocal 3 = 0 := by
  have hblank : (Story.Draft.blank 3).version = 3 := rfl
  have himage : (Story.Draft.blank 3).image[0]? = some (Story.Draft.blank 3).version :=
    Story.Draft.version_blank 3
  have hdrafted : drafted.image[0]? = some 3 := by
    rw [← hblank, ← himage]
    exact Story.Draft.getElem?_place_outside (by omega)
  obtain ⟨m, hload⟩ := Story.Draft.load_finish hdrafted (by decide)
  have hversion : m.version = 3 := by
    apply Memory.version_of_getElem?
    rw [Memory.load_bytes hload, Story.Draft.getElem?_finish (by omega), hdrafted]
  have hmain : Core.mainFrame m = .ok { pc := m.initialPc.toNat } := by
    rw [Core.mainFrame, hversion]
    rfl
  have hboot := boot_of_load hload hmain ({} : Playback)
  have holds := boot_holdsRoutine hboot (by omega) himage (fun huses => by cases huses)
  obtain ⟨-, -, hdraft⟩ := @call_binds_arguments _ _ _ _ (.boot hboot) 0x1800 (by decide) [1] (by decide) (some 0)
  obtain ⟨f, hcall, henters, -, hinitial⟩ := hdraft (Story.Draft.blank 3) 0x3000 [7, 8, 9] [0xB0] (by decide)
    (by rw [hblank]; decide) (by rw [hblank]; decide) (by rw [hblank]; decide) holds (show 1 < 1024 by decide)
  have hearly : (start ⟨m, m, [{ pc := m.initialPc.toNat }]⟩ ({} : Playback)).version < 5 := by
    rw [holds.version, hblank]
    decide
  refine ⟨_, hboot, f, hcall, ?_, henters.argument 0 1 (by decide) rfl, ?_, ?_, henters.unused 3 (by decide)⟩
  · rw [henters.pc, if_pos hearly]
    rfl
  · exact (Option.some.inj (hinitial hearly 1 (by decide) (by decide))).symm
  · exact (Option.some.inj (hinitial hearly 2 (by decide) (by decide))).symm

end Machine

end ZMachine
