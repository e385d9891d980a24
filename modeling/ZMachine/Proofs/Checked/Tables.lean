import ZMachine.Execute
import ZMachine.Proofs.Checked.Text

namespace ZMachine.Checked

def codeOf (c : Char) : Calc UInt8 := do return ((← zsciiCode c).getD Zscii.unknown).toUInt8

def captureChars (table : Nat) : UInt16 → List Char → Work Memory UInt16
  | count, [] => pure count
  | count, c :: rest => do
    let code ← codeOf c
    setByte (← add 32 (← add 32 table 2) count.toNat) code
    captureChars table (count + 1) rest

def capture (table : Nat) (text : List Char) : Work Memory Unit := do
  let count ← read (word · table)
  let count ← captureChars table count text
  setWord table count

section Capture

variable {n table : Nat} {text : List Char}

theorem codeOf_eq (c : Char) : codeOf c = .ok (Machine.codeOf c) := by
  rw [codeOf, zsciiCode_eq]
  rfl

theorem captureChars_tracks {count : UInt16} (ht : table < 2 ^ 16) :
    Tracks (Memory.Sized n) (captureChars table count text)
      (Machine.captureChars table count text) := by
  induction text generalizing count with
  | nil => exact .pure _
  | cons c rest ih =>
    have hc := count.toNat_lt
    unfold captureChars Machine.captureChars
    rw [codeOf_eq, lift_ok_bind, add_of_lt (by omega), lift_ok_bind, add_of_lt (by omega), lift_ok_bind]
    exact .bind (setByte_tracks (by omega)) fun _ => ih

theorem capture_tracks (ht : table < 2 ^ 16) :
    Tracks (Memory.Sized n) (capture table text) (Machine.capture table text) := by
  refine .bind (.read fun _ _ => word_agrees (by omega)) fun count => ?_
  exact .bind (captureChars_tracks ht) fun _ => setWord_tracks (by omega)

end Capture

def userSlot (stack : Nat) (free : UInt16) : Calc Nat := do
  add 32 stack (← mul 32 free.toNat 2)

def pullUserStack (stack : Nat) : Work Memory UInt16 := do
  let free := (← read (word · stack)) + 1
  let slot ← userSlot stack free
  let v ← read (word · slot)
  setWord stack free
  return v

def pushUserStack (stack : Nat) (v : UInt16) : Work Memory Bool := do
  let free ← read (word · stack)
  if free = 0 then return false
  else
    setWord (← userSlot stack free) v
    setWord stack (UInt16.ofNat (← sub free.toNat 1))
    return true

def dropUserStack (stack : Nat) (n : UInt16) : Work Memory Unit := do
  let free ← read (word · stack)
  setWord stack (free + n)

section UserStack

variable {n stack : Nat} {free : UInt16}

theorem userSlot_eq (hs : stack < 2 ^ 16) : userSlot stack free = .ok (stack + free.toNat * 2) := by
  have hf := free.toNat_lt
  rw [userSlot, mul_of_lt (by omega), ok_bind, add_of_lt (by omega)]

theorem userSlot_lt (hs : stack < 2 ^ 16) : stack + free.toNat * 2 < 2 ^ 32 := by
  have hf := free.toNat_lt
  omega

theorem pullUserStack_tracks (hs : stack < 2 ^ 16) :
    Tracks (Memory.Sized n) (pullUserStack stack) (Machine.pullUserStack stack) := by
  refine .bind (.read fun _ _ => word_agrees (by omega)) fun free => ?_
  dsimp only
  rw [userSlot_eq hs, lift_ok_bind]
  refine .bind (.read fun _ _ => word_agrees (userSlot_lt hs)) fun v => ?_
  exact .bind (setWord_tracks (by omega)) fun _ => .pure _

theorem ofNat_pred (h : free ≠ 0) : UInt16.ofNat (free.toNat - 1) = free - 1 := by
  have hf := free.toNat_lt
  have positive : 1 ≤ free.toNat := Nat.pos_of_ne_zero fun hz => h (UInt16.toNat_inj.mp hz)
  have le : (1 : UInt16) ≤ free := UInt16.le_iff_toNat_le.mpr positive
  apply UInt16.toNat_inj.mp
  rw [UInt16.toNat_ofNat', Nat.mod_eq_of_lt (by omega), UInt16.toNat_sub_of_le _ _ le]
  rfl

theorem pushUserStack_tracks {v : UInt16} (hs : stack < 2 ^ 16) :
    Tracks (Memory.Sized n) (pushUserStack stack v) (Machine.pushUserStack stack v) := by
  refine .bind (.read fun _ _ => word_agrees (by omega)) fun free => ?_
  refine .ite (fun _ => .pure _) fun room => ?_
  have positive : 1 ≤ free.toNat := Nat.pos_of_ne_zero fun hz => room (UInt16.toNat_inj.mp hz)
  rw [userSlot_eq hs, lift_ok_bind, sub_of_le positive, lift_ok_bind, ofNat_pred room]
  refine .bind (setWord_tracks (userSlot_lt hs)) fun _ => ?_
  exact .bind (setWord_tracks (by omega)) fun _ => .pure _

theorem dropUserStack_tracks {k : UInt16} (hs : stack < 2 ^ 16) :
    Tracks (Memory.Sized n) (dropUserStack stack k) (Machine.dropUserStack stack k) :=
  .bind (.read fun _ _ => word_agrees (by omega)) fun _ => setWord_tracks (by omega)

end UserStack

def clearBytes (a : Nat) : Nat → Nat → Work Memory Unit
  | 0, _ => pure ()
  | left + 1, i => do
    setByte (← add 32 a i) 0
    clearBytes a left (i + 1)

def copyForward (source dest : Nat) : Nat → Nat → Work Memory Unit
  | 0, _ => pure ()
  | left + 1, i => do
    let a ← add 32 source i
    let b ← read (byte · a)
    setByte (← add 32 dest i) b
    copyForward source dest left (i + 1)

def copyTable (first second : Nat) (size : Int) : Work Memory Unit := do
  let n := size.natAbs
  if second = 0 then clearBytes first n 0
  else if size < 0 then copyForward first second n 0
  else setBytes second 0 (← read (slice · first n))

def scanTable (m : Memory) (value : UInt16) (words : Bool) (width table : Nat) :
    Nat → Nat → Calc (Option Nat)
  | 0, _ => return none
  | left + 1, i => do
    let a ← add 32 table (← mul 32 i width)
    let entry ← if words then word m a else UInt8.toUInt16 <$> byte m a
    if entry = value then return some a else scanTable m value words width table left (i + 1)

def tableRow (m : Memory) (a : Nat) : Nat → Nat → Calc (List Char)
  | 0, _ => return []
  | left + 1, i => do
    let c ← zsciiChar (← byte m (← add 32 a i)).toUInt16
    return c.getD '?' :: (← tableRow m a left (i + 1))

section Copy

variable {n a i left : Nat}

theorem clearBytes_tracks (h : a + i + left ≤ 2 ^ 32) :
    Tracks (Memory.Sized n) (clearBytes a left i) (Machine.clearBytes (a + i) left) := by
  induction left generalizing i with
  | zero => exact .pure _
  | succ left ih =>
    unfold clearBytes Machine.clearBytes
    rw [add_of_lt (by omega), lift_ok_bind]
    exact .bind (setByte_tracks (by omega)) fun _ => ih (by omega)

theorem copyForward_tracks {source dest : Nat} (hs : source + i + left ≤ 2 ^ 32)
    (hd : dest + i + left ≤ 2 ^ 32) :
    Tracks (Memory.Sized n) (copyForward source dest left i)
      (Machine.copyForward (source + i) (dest + i) left) := by
  induction left generalizing i with
  | zero => exact .pure _
  | succ left ih =>
    unfold copyForward Machine.copyForward
    rw [add_of_lt (by omega), lift_ok_bind, add_of_lt (by omega)]
    refine .bind (.read fun _ _ => byte_agrees (by omega)) fun b => ?_
    exact .bind (setByte_tracks (by omega)) fun _ => ih (by omega) (by omega)

theorem slice_length {m : Memory} {bytes : List UInt8} (h : m.slice a n = .ok bytes) :
    bytes.length = n := by
  obtain ⟨v, -, rfl⟩ := ok_of_map h
  exact v.length_toList

theorem copyTable_tracks {first second : Nat} {size : Int} (hf : first < 2 ^ 16)
    (hs : second < 2 ^ 16) (hsize : size.natAbs < 2 ^ 16) :
    Tracks (Memory.Sized n) (copyTable first second size) (Machine.copyTable first second size) := by
  refine .ite (fun _ => clearBytes_tracks (by omega)) fun _ => ?_
  refine .ite (fun _ => copyForward_tracks (by omega) (by omega)) fun _ => ?_
  refine .bind_read (fun _ _ => slice_agrees (by omega) (by omega)) fun bytes _ hb => ?_
  have hl := slice_length hb
  exact setBytes_tracks (by omega)

theorem scanTable_agrees {m : Memory} {value : UInt16} {words : Bool} {width table : Nat}
    (h : table + (i + left) * width < 2 ^ 32) :
    Agrees (scanTable m value words width table left i)
      (Machine.scanTable m value words width (table + i * width) left) := by
  induction left generalizing i with
  | zero => exact .ok _
  | succ left ih =>
    have hi : i * width ≤ (i + (left + 1)) * width := Nat.mul_le_mul_right width (by omega)
    have ha : table + i * width < 2 ^ 32 := by omega
    have next : table + i * width + width = table + (i + 1) * width := by
      rw [Nat.add_mul, Nat.one_mul, Nat.add_assoc]
    have rest : Agrees (scanTable m value words width table left (i + 1))
        (Machine.scanTable m value words width (table + i * width + width) left) := by
      rw [next]
      apply ih
      rw [show i + 1 + left = i + (left + 1) by omega]
      exact h
    unfold scanTable Machine.scanTable
    rw [mul_of_lt (by omega), ok_bind, add_of_lt ha, ok_bind]
    split
    · exact .bind (word_agrees ha) fun entry _ => .ite (fun _ => .ok _) fun _ => rest
    · exact .bind ((byte_agrees ha).map _) fun entry _ => .ite (fun _ => .ok _) fun _ => rest

theorem tableRow_agrees {m : Memory} (h : a + i + left ≤ 2 ^ 32) :
    Agrees (tableRow m a left i) (Machine.tableRow m (a + i) left) := by
  induction left generalizing i with
  | zero => exact .ok _
  | succ left ih =>
    unfold tableRow Machine.tableRow
    rw [add_of_lt (by omega), ok_bind]
    refine .bind (byte_agrees (by omega)) fun b _ => ?_
    rw [zsciiChar_eq, ok_bind]
    exact .bind (ih (by omega)) fun _ _ => .ok _

end Copy

def lineCodes (line : String) : Calc (List UInt8) := do
  let codes ← ((trimLineEnd line).toList.flatMap lowerCase).mapM zsciiCode
  return ((codes.filterMap id).filter (· ≠ Zscii.newline)).map UInt16.toUInt8

def storeLine (version : UInt8) (buffer : Nat) (line : String) : Work Memory Unit := do
  let capacity ← read (byte · buffer)
  let codes := (← lineCodes line).take (Machine.textLimit version capacity)
  let start ← add 32 buffer (Machine.textStart version)
  setBytes start 0 codes
  if version ≤ 4 then setByte (← add 32 start codes.length) 0
  else setByte (← add 32 buffer 1) (UInt8.ofNat codes.length)

def bytesUpToZero (m : Memory) (a : Nat) : Nat → Nat → Calc (List UInt8)
  | 0, _ => return []
  | left + 1, i => do
    let b ← byte m (← add 32 a i)
    if b = 0 then return [] else return b :: (← bytesUpToZero m a left (i + 1))

def bufferText (version : UInt8) (m : Memory) (buffer : Nat) : Calc (List UInt8) := do
  let start ← add 32 buffer (Machine.textStart version)
  if version ≤ 4 then bytesUpToZero m start (← byte m buffer).toNat 0
  else slice m start (← byte m (← add 32 buffer 1)).toNat

def separators (m : Memory) : Calc (List UInt8) := do
  let a := m.dictionary.toNat
  let n ← byte m a
  slice m (← add 32 a 1) n.toNat

def finished (i : Nat) : Option Nat → Calc (List (Nat × Nat))
  | none => return []
  | some start => do return [(start, ← sub i start)]

def wordsFrom (separators : List UInt8) (i : Nat) (start : Option Nat) :
    List UInt8 → Calc (List (Nat × Nat))
  | [] => finished i start
  | b :: rest =>
    if b = 32 ∨ b ∈ separators then do
      let word ← finished i start
      return word ++ (if b = 32 then [] else [(i, 1)]) ++ (← wordsFrom separators (i + 1) none rest)
    else wordsFrom separators (i + 1) (some (start.getD i)) rest

def storeEntries (offset parse : Nat) : Nat → List (Nat × Nat) → Work Memory Unit
  | _, [] => pure ()
  | i, (start, length) :: rest => do
    let a ← add 32 (← add 32 parse 2) (← mul 32 i 4)
    let position ← add 64 start offset
    setWord a 0
    setByte (← add 32 a 2) (UInt8.ofNat length)
    setByte (← add 32 a 3) (UInt8.ofNat position)
    storeEntries offset parse (i + 1) rest

def tokenise (version : UInt8) (buffer parse : Nat) (countOnly : Bool) : Work Memory Unit := do
  let text ← read fun m => bufferText version m buffer
  let separators ← read separators
  let capacity ← read (byte · parse)
  let words := (← wordsFrom separators 0 none text).take capacity.toNat
  setByte (← add 32 parse 1) (UInt8.ofNat words.length)
  if countOnly then return else storeEntries (Machine.textStart version) parse 0 words

def setWords (a : Nat) : Nat → List UInt16 → Work Memory Unit
  | _, [] => pure ()
  | i, w :: rest => do
    setWord (← add 32 a (← mul 32 i 2)) w
    setWords a (i + 1) rest

def encodeAt (version : UInt8) (source n dest : Nat) : Work Memory Unit := do
  let bytes ← read (slice · source n)
  let A ← read alphabets
  setWords dest 0 (← encodeWord A version (bytes.map fun b => Char.ofNat b.toNat))

section Buffers

variable {n : Nat} {version : UInt8} {m : Memory}

theorem textStart_le (version : UInt8) : Machine.textStart version ≤ 2 := by
  unfold Machine.textStart
  split <;> decide

theorem lineCodes_eq (line : String) : lineCodes line = .ok (Machine.lineCodes line) := by
  have codes : zsciiCode = fun c => pure (Zscii.ofChar? c) := funext zsciiCode_eq
  unfold lineCodes
  rw [codes, List.mapM_pure]
  change Except.ok _ = _
  rw [List.filterMap_map]
  rfl

theorem textLimit_le (version capacity : UInt8) : Machine.textLimit version capacity ≤ 255 := by
  have hc := capacity.toNat_lt
  unfold Machine.textLimit
  split <;> omega

theorem storeLine_tracks {buffer : Nat} {line : String} (hb : buffer < 2 ^ 16) :
    Tracks (Memory.Sized n) (storeLine version buffer line)
      (Machine.storeLine version buffer line) := by
  have hs := textStart_le version
  refine .bind (.read fun _ _ => byte_agrees (by omega)) fun capacity => ?_
  rw [lineCodes_eq, lift_ok_bind, add_of_lt (by omega), lift_ok_bind]
  have hl : ((Machine.lineCodes line).take (Machine.textLimit version capacity)).length ≤ 255 :=
    Nat.le_trans (List.length_take_le ..) (textLimit_le ..)
  dsimp only
  generalize (Machine.lineCodes line).take (Machine.textLimit version capacity) = codes at hl ⊢
  refine .bind (setBytes_tracks (by omega)) fun _ => .ite (fun _ => ?_) fun _ => ?_
  · rw [add_of_lt (by omega), lift_ok_bind]
    exact setByte_tracks (by omega)
  · rw [add_of_lt (by omega), lift_ok_bind]
    exact setByte_tracks (by omega)

theorem bytesUpToZero_agrees {a i left : Nat} (h : a + i + left ≤ 2 ^ 32) :
    Agrees (bytesUpToZero m a left i) (Machine.bytesUpToZero m (a + i) left) := by
  induction left generalizing i with
  | zero => exact .ok _
  | succ left ih =>
    unfold bytesUpToZero Machine.bytesUpToZero
    rw [add_of_lt (by omega), ok_bind]
    refine .bind (byte_agrees (by omega)) fun b _ => .ite (fun _ => .ok _) fun _ => ?_
    exact .bind (ih (by omega)) fun _ _ => .ok _

theorem bytesUpToZero_length {a left : Nat} {bytes : List UInt8}
    (h : Machine.bytesUpToZero m a left = .ok bytes) : bytes.length ≤ left := by
  induction left generalizing a bytes with
  | zero =>
    cases h
    exact Nat.le_refl 0
  | succ left ih =>
    obtain ⟨b, -, h⟩ := ok_of_bind_except h
    split at h
    · cases h
      exact Nat.zero_le _
    · obtain ⟨rest, hr, h⟩ := ok_of_bind_except h
      cases h
      exact Nat.succ_le_succ (ih hr)

theorem bufferText_agrees {buffer : Nat} (hb : buffer < 2 ^ 16) :
    Agrees (bufferText version m buffer) (Machine.bufferText version m buffer) := by
  have hs := textStart_le version
  unfold bufferText Machine.bufferText
  rw [add_of_lt (by omega), ok_bind]
  refine .ite (fun _ => ?_) fun _ => ?_
  · refine .bind (byte_agrees (by omega)) fun k _ => ?_
    have hk := k.toNat_lt
    exact bytesUpToZero_agrees (by omega)
  · rw [add_of_lt (by omega), ok_bind]
    refine .bind (byte_agrees (by omega)) fun k _ => ?_
    have hk := k.toNat_lt
    exact slice_agrees (by omega) (by omega)

theorem bufferText_length {buffer : Nat} {text : List UInt8}
    (h : Machine.bufferText version m buffer = .ok text) : text.length ≤ 255 := by
  unfold Machine.bufferText at h
  dsimp only at h
  split at h
  · obtain ⟨k, -, h⟩ := ok_of_bind_except h
    have hk := k.toNat_lt
    have hl := bytesUpToZero_length h
    omega
  · obtain ⟨k, -, h⟩ := ok_of_bind_except h
    have hk := k.toNat_lt
    have hl := slice_length h
    omega

theorem separators_agrees : Agrees (separators m) (Machine.separators m) := by
  have hd := m.dictionary.toNat_lt
  unfold separators Machine.separators
  dsimp only
  refine .bind (byte_agrees (by omega)) fun k _ => ?_
  have hk := k.toNat_lt
  rw [add_of_lt (by omega), ok_bind]
  exact slice_agrees (by omega) (by omega)

def startOf (i run : Nat) : Option Nat := if run = 0 then none else some (i - run)

theorem finished_eq {i run : Nat} (h : run ≤ i) :
    finished i (startOf i run) = .ok (if run = 0 then [] else [(i - run, run)]) := by
  unfold startOf
  split
  · rfl
  · have length : i - (i - run) = run := by omega
    unfold finished
    dsimp only
    rw [sub_of_le (by omega), length]
    rfl

theorem wordsFrom_eq {separators text : List UInt8} {i run : Nat} (h : run ≤ i) :
    wordsFrom separators i (startOf i run) text =
      .ok (ZMachine.wordsFrom separators i run text) := by
  induction text generalizing i run with
  | nil => exact finished_eq h
  | cons b rest ih =>
    have fresh : wordsFrom separators (i + 1) none rest = .ok (ZMachine.wordsFrom separators (i + 1) 0 rest) :=
      ih (Nat.zero_le _)
    -- one side keeps where the word began, the other how long it is so far
    have longer : some ((startOf i run).getD i) = startOf (i + 1) (run + 1) := by
      unfold startOf
      split
      · next none => simp [none]
      · simp
    unfold wordsFrom ZMachine.wordsFrom
    rw [finished_eq h, fresh, longer, ih (by omega)]
    split <;> rfl

theorem splitWords_eq (text separators : List UInt8) :
    wordsFrom separators 0 none text = .ok (splitWords text separators) :=
  @wordsFrom_eq separators text 0 0 (Nat.le_refl 0)

theorem wordsFrom_start {separators text : List UInt8} {i run : Nat} {p : Nat × Nat}
    (h : p ∈ ZMachine.wordsFrom separators i run text) : p.1 ≤ i + text.length := by
  induction text generalizing i run with
  | nil =>
    unfold ZMachine.wordsFrom at h
    split at h
    · cases h
    · rw [List.mem_singleton.mp h]
      dsimp only [List.length_nil]
      omega
  | cons b rest ih =>
    unfold ZMachine.wordsFrom at h
    rw [List.length_cons]
    split at h
    · rw [List.mem_append, List.mem_append] at h
      obtain (hw | hb) | hr := h
      · split at hw
        · cases hw
        · rw [List.mem_singleton.mp hw]
          dsimp only
          omega
      · split at hb
        · cases hb
        · rw [List.mem_singleton.mp hb]
          dsimp only
          omega
      · have := ih hr
        omega
    · have := ih h
      omega

theorem storeEntries_tracks {offset parse i : Nat} {words : List (Nat × Nat)}
    (ho : offset ≤ 2) (hp : parse < 2 ^ 16) (hi : i + words.length < 2 ^ 16)
    (hw : ∀ p ∈ words, p.1 < 2 ^ 32) :
    Tracks (Memory.Sized n) (storeEntries offset parse i words)
      (Machine.storeEntries offset (parse + 2 + i * 4) words) := by
  induction words generalizing i with
  | nil => exact .pure _
  | cons p rest ih =>
    obtain ⟨start, length⟩ := p
    obtain ⟨hstart, hrest⟩ := List.forall_mem_cons.mp hw
    have hstart : start < 2 ^ 32 := hstart
    rw [List.length_cons] at hi
    have next : parse + 2 + i * 4 + 4 = parse + 2 + (i + 1) * 4 := by omega
    unfold storeEntries Machine.storeEntries
    simp (disch := omega) only [mul_of_lt, add_of_lt, lift_ok_bind, next]
    refine .bind (setWord_tracks (by omega)) fun _ => .bind (setByte_tracks (by omega)) fun _ => ?_
    exact .bind (setByte_tracks (by omega)) fun _ => ih (by omega) hrest

theorem tokenise_tracks {buffer parse : Nat} {countOnly : Bool} (hb : buffer < 2 ^ 16)
    (hp : parse < 2 ^ 16) :
    Tracks (Memory.Sized n) (tokenise version buffer parse countOnly)
      (Machine.tokenise version buffer parse countOnly) := by
  refine .bind_read (fun _ _ => bufferText_agrees hb) fun text _ ht => ?_
  have hl := bufferText_length ht
  refine .bind (.read fun _ _ => separators_agrees) fun separators => ?_
  refine .bind (.read fun _ _ => byte_agrees (by omega)) fun capacity => ?_
  have hc := capacity.toNat_lt
  rw [splitWords_eq, lift_ok_bind, add_of_lt (by omega), lift_ok_bind]
  refine .bind (setByte_tracks (by omega)) fun _ => .ite (fun _ => .pure _) fun _ => ?_
  have few : ((splitWords text separators).take capacity.toNat).length ≤ 255 :=
    Nat.le_trans (List.length_take_le ..) (by omega)
  refine storeEntries_tracks (i := 0) (textStart_le version) hp (by omega) fun p hmem => ?_
  have start := wordsFrom_start (List.mem_of_mem_take hmem)
  omega

theorem setWords_tracks {a i : Nat} {words : List UInt16} (h : a + (i + words.length) * 2 < 2 ^ 32) :
    Tracks (Memory.Sized n) (setWords a i words) (Machine.setWords (a + i * 2) words) := by
  induction words generalizing i with
  | nil => exact .pure _
  | cons w rest ih =>
    rw [List.length_cons] at h
    have next : a + i * 2 + 2 = a + (i + 1) * 2 := by omega
    unfold setWords Machine.setWords
    rw [mul_of_lt (by omega), lift_ok_bind, add_of_lt (by omega), lift_ok_bind, next]
    exact .bind (setWord_tracks (by omega)) fun _ => ih (by omega)

theorem encodeAt_tracks {source k dest : Nat} (hs : source < 2 ^ 32) (hk : k < 2 ^ 32)
    (hd : dest < 2 ^ 16) :
    Tracks (Memory.Sized n) (encodeAt version source k dest)
      (Machine.encodeAt version source k dest) := by
  refine .bind (.read fun _ _ => slice_agrees hs hk) fun bytes => ?_
  refine .bind (.read fun m _ => alphabets_agrees m) fun A => ?_
  have hr : resolution version ≤ 9 := by
    unfold resolution
    split <;> decide
  have hl := length_encodeWord A version (bytes.map fun b => Char.ofNat b.toNat)
  rw [encodeWord_eq, lift_ok_bind]
  exact setWords_tracks (i := 0) (by omega)

end Buffers

end ZMachine.Checked
