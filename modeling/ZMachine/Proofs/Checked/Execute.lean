import ZMachine.Proofs.Checked.Machine
import ZMachine.Proofs.Machine.Invariant

namespace ZMachine.Checked

variable {η : Type} {n : Nat} {i : Instruction} {operands : List UInt16}

theorem word_lt (w : UInt16) : w.toNat < 2 ^ 32 := Nat.lt_trans w.toNat_lt (by decide)

/-! ### Arithmetic -/

def shiftSigned (k : Int) (places : Nat) : Calc Int :=
  if places < 16 then .ok (k >>> places) else .error .overflow

def logicalShift (a : UInt16) (places : Int) : Calc UInt16 := do
  if 0 ≤ places ∧ places ≤ 15 then return UInt16.ofNat (← shiftLeft 16 a.toNat places.toNat)
  else if -15 ≤ places ∧ places < 0 then
    let back ← fitSigned 15 (-places)
    return UInt16.ofNat (← shiftRight 16 a.toNat back.toNat)
  else return 0

def arithmeticShift (a : UInt16) (places : Int) : Calc UInt16 := do
  if 15 < places then return 0
  else if 0 ≤ places then return UInt16.ofNat (← shiftLeft 16 a.toNat places.toNat)
  else if -15 ≤ places then
    let back ← fitSigned 15 (-places)
    return (Int16.ofInt (← shiftSigned a.toInt16.toInt back.toNat)).toUInt16
  else return (Int16.ofInt (← shiftSigned a.toInt16.toInt 15)).toUInt16

def candidates (operands : List UInt16) : Calc (List UInt16) := do
  if 1 < operands.length then span 1 operands.length operands.length
  return operands.tail

def adjust (n : UInt8) (by' : Int16) : Work (Machine η) Int16 := do
  let v := (← onCore (readIndirect n)).toInt16 + by'
  onCore (writeIndirect n v.toUInt16)
  return v

def random [Host η] (range : Int16) : Work (Machine η) UInt16 := do
  if 0 < range then
    span 1 range.toUInt16.toNat (2 ^ 16)
    plainly (Machine.tell (Host.roll range.toUInt16))
  else if range < 0 then
    plainly (Machine.tell fun host => (0, Host.seed (UInt64.ofNat range.toInt.natAbs) host))
  else plainly (Machine.tell fun host => (0, Host.reseed host))

def executeMath [Host η] (i : Instruction) (operands : List UInt16) :
    Work (Machine η) Outcome := do
  let a := operands.getD 0 0
  let b := operands.getD 1 0
  match i.mnemonic with
  | .add => storeResult i (a + b)
  | .sub => storeResult i (a - b)
  | .mul => storeResult i (a * b)
  | .div =>
    if b = 0 then throw (.fault .divisionByZero)
    storeResult i (a.toInt16 / b.toInt16).toUInt16
  | .mod =>
    if b = 0 then throw (.fault .divisionByZero)
    storeResult i (a.toInt16 % b.toInt16).toUInt16
  | .or => storeResult i (a ||| b)
  | .and => storeResult i (a &&& b)
  | .not => storeResult i (~~~a)
  | .test => branchOn i (a &&& b = b)
  | .je => branchOn i ((← candidates operands).contains a)
  | .jl => branchOn i (a.toInt16 < b.toInt16)
  | .jg => branchOn i (b.toInt16 < a.toInt16)
  | .jz => branchOn i (a = 0)
  | .inc =>
    let _ ← adjust a.toUInt8 1
    return .proceeded
  | .dec =>
    let _ ← adjust a.toUInt8 (-1)
    return .proceeded
  | .incChk =>
    let v ← adjust a.toUInt8 1
    branchOn i (b.toInt16 < v)
  | .decChk =>
    let v ← adjust a.toUInt8 (-1)
    branchOn i (v < b.toInt16)
  | .logShift => storeResult i (← logicalShift a b.toInt16.toInt)
  | .artShift => storeResult i (← arithmeticShift a b.toInt16.toInt)
  | .random =>
    let v ← random a.toInt16
    storeResult i v
  | other => throw (.fault (.invalidStory (.unhandled .math other)))

section Arithmetic

theorem ofNat_mod (k : Nat) : UInt16.ofNat (k % 2 ^ 16) = UInt16.ofNat k := by
  apply UInt16.toNat_inj.mp
  rw [UInt16.toNat_ofNat', UInt16.toNat_ofNat', Nat.mod_mod]

theorem shiftSigned_of_lt {k : Int} {places : Nat} (h : places < 16) :
    shiftSigned k places = .ok (k >>> places) := if_pos h

theorem logicalShift_eq (a : UInt16) (places : Int) :
    logicalShift a places = .ok (Machine.logicalShift a places) := by
  unfold logicalShift Machine.logicalShift
  split
  · rw [shiftLeft_of_lt (by omega)]
    exact congrArg Except.ok (ofNat_mod _)
  · split
    · rw [fitSigned_of_bounds (by omega) (by omega), ok_bind, shiftRight_of_lt (by omega)]
      rfl
    · rfl

theorem arithmeticShift_eq (a : UInt16) (places : Int) :
    arithmeticShift a places = .ok (Machine.arithmeticShift a places) := by
  unfold arithmeticShift Machine.arithmeticShift
  split
  · rfl
  · split
    · rw [shiftLeft_of_lt (by omega)]
      exact congrArg Except.ok (ofNat_mod _)
    · split
      · rw [fitSigned_of_bounds (by omega) (by omega), ok_bind, shiftSigned_of_lt (by omega),
          Nat.min_eq_right (by omega)]
        rfl
      · rw [shiftSigned_of_lt (by omega), Nat.min_eq_left (by omega)]
        rfl

theorem candidates_eq (operands : List UInt16) : candidates operands = .ok operands.tail := by
  unfold candidates
  split
  · rw [span_of_le (by omega) (by omega)]
    rfl
  · rfl

theorem adjust_tracks {k : UInt8} {by' : Int16} :
    Tracks (Machine.Fits n) (adjust k by' : Work (Machine η) Int16) (Machine.adjust k by') :=
  .bind (.onCore readIndirect_tracks) fun _ => .bind (.onCore writeIndirect_tracks) fun _ => .pure _

theorem range_pos {range : Int16} (h : 0 < range) : 1 ≤ range.toUInt16.toNat := by
  refine Nat.pos_of_ne_zero fun hz => ?_
  have zero : range = 0 := congrArg Int16.ofUInt16 (UInt16.toNat_inj.mp hz)
  rw [zero] at h
  exact absurd h (by decide)

variable [Host η]

theorem random_tracks {range : Int16} :
    Tracks (Machine.Fits n) (random range : Work (Machine η) UInt16) (Machine.random range) := by
  unfold random Machine.random
  refine .ite (fun h => ?_) fun _ => .ite (fun _ => .tell) fun _ => .tell
  rw [span_of_le (range_pos h) (Nat.le_of_lt range.toUInt16.toNat_lt), lift_ok_bind]
  exact .tell

theorem executeMath_tracks (hi : i.Fits) (hf : i.mnemonic.family? = some .math) :
    Tracks (Machine.Fits n) (executeMath i operands : Work (Machine η) Outcome)
      (Machine.executeMath i operands) := by
  unfold executeMath Machine.executeMath
  cases hm : i.mnemonic with
  | add | sub | mul | or | and | not => exact storeResult_tracks
  | div | mod => exact .ite (fun _ => .throw trivial) fun _ => storeResult_tracks
  | test | jl | jg | jz => exact branchOn_tracks hi
  | je =>
    dsimp only
    rw [candidates_eq, lift_ok_bind]
    exact branchOn_tracks hi
  | inc | dec => exact .bind adjust_tracks fun _ => .pure _
  | incChk | decChk => exact .bind adjust_tracks fun _ => branchOn_tracks hi
  | logShift =>
    dsimp only
    rw [logicalShift_eq, lift_ok_bind]
    exact storeResult_tracks
  | artShift =>
    dsimp only
    rw [arithmeticShift_eq, lift_ok_bind]
    exact storeResult_tracks
  | random => exact .bind random_tracks fun _ => storeResult_tracks
  | _ =>
    -- what is left belongs to another family; so it is in every one that follows
    rw [hm] at hf
    cases hf

end Arithmetic

/-! ### Variables and tables -/

def executeTable (i : Instruction) (operands : List UInt16) : Work (Machine η) Outcome := do
  let a := operands.getD 0 0
  let b := operands.getD 1 0
  let c := operands.getD 2 0
  match i.mnemonic with
  | .load =>
    let v ← onCore (readIndirect a.toUInt8)
    storeResult i v
  | .store =>
    onCore (writeIndirect a.toUInt8 b)
    return .proceeded
  | .loadw =>
    let v ← readMemory (word · (a + 2 * b).toNat)
    storeResult i v
  | .loadb =>
    let v ← readMemory (byte · (a + b).toNat)
    storeResult i v.toUInt16
  | .storew =>
    onMemory (setWord (a + 2 * b).toNat c)
    return .proceeded
  | .storeb =>
    onMemory (setByte (a + b).toNat c.toUInt8)
    return .proceeded
  | .copyTable =>
    onMemory (copyTable a.toNat b.toNat c.toInt16.toInt)
    return .proceeded
  | .scanTable =>
    let form := (operands.getD 3 Machine.wordTable).toNat
    let found ← readMemory fun m =>
      scanTable m a (form.testBit 7) (form % 128) b.toNat c.toNat 0
    storeTo i.store (UInt16.ofNat (found.getD 0))
    branchOn i found.isSome
  | other => throw (.fault (.invalidStory (.unhandled .memory other)))

section Table

theorem natAbs_lt (c : Int16) : c.toInt.natAbs < 2 ^ 16 := by
  have low := c.le_toInt
  have high := c.toInt_lt
  omega

theorem scanTable_start {m : Memory} {value : UInt16} {words : Bool} {form : Nat} (b c : UInt16) :
    Agrees (scanTable m value words (form % 128) b.toNat c.toNat 0)
      (Machine.scanTable m value words (form % 128) b.toNat c.toNat) := by
  -- The last field of the longest table that can be asked for has an address.
  have hb := b.toNat_lt
  have hc := c.toNat_lt
  have last : c.toNat * (form % 128) ≤ 65536 * 128 := Nat.mul_le_mul (by omega) (by omega)
  have fields := @scanTable_agrees 0 c.toNat m value words (form % 128) b.toNat (by
    rw [Nat.zero_add]
    omega)
  rw [Nat.zero_mul, Nat.add_zero] at fields
  exact fields

theorem executeTable_tracks (hi : i.Fits) (hf : i.mnemonic.family? = some .memory) :
    Tracks (Machine.Fits n) (executeTable i operands : Work (Machine η) Outcome)
      (Machine.executeTable i operands) := by
  unfold executeTable Machine.executeTable
  cases hm : i.mnemonic with
  | load => exact .bind (.onCore readIndirect_tracks) fun _ => storeResult_tracks
  | store => exact .bind (.onCore writeIndirect_tracks) fun _ => .pure _
  | loadw => exact .bind (.readMemory fun _ => word_agrees (word_lt _)) fun _ => storeResult_tracks
  | loadb => exact .bind (.readMemory fun _ => byte_agrees (word_lt _)) fun _ => storeResult_tracks
  | storew => exact .bind (.onMemory fun _ => setWord_tracks (word_lt _)) fun _ => .pure _
  | storeb => exact .bind (.onMemory fun _ => setByte_tracks (word_lt _)) fun _ => .pure _
  | copyTable =>
    refine .bind (.onMemory fun _ => ?_) fun _ => .pure _
    exact copyTable_tracks (UInt16.toNat_lt _) (UInt16.toNat_lt _) (natAbs_lt _)
  | scanTable =>
    refine .bind (.readMemory fun _ => scanTable_start _ _) fun _ => ?_
    exact .bind storeTo_tracks fun _ => branchOn_tracks hi
  | _ =>
    rw [hm] at hf
    cases hf

end Table

/-! ### Routines and stacks -/

def popTimes : Nat → Work Core Unit
  | 0 => pure ()
  | n + 1 => do
    let _ ← onTop Frame.pop
    popTimes n

def executeRoutine (i : Instruction) (operands : List UInt16) : Work (Machine η) Outcome := do
  let first := operands.getD 0 0
  let second := operands.getD 1 0
  match i.mnemonic with
  | .call1s | .call2s | .callVs | .callVs2 => call first operands.tail i.store
  | .call1n | .call2n | .callVn | .callVn2 => call first operands.tail none
  | .ret => returnValue first
  | .rtrue => returnValue 1
  | .rfalse => returnValue 0
  | .retPopped =>
    let v ← onCore (onTop Frame.pop)
    returnValue v
  | .catchFrame => storeResult i (UInt16.ofNat (← get).core.depth)
  | .throwFrame =>
    onCore (inFrames (plainly (CallStack.unwindTo second.toNat)))
    returnValue first
  | .checkArgCount =>
    let frame ← onCore (inFrames (plainly (Action.reading CallStack.top)))
    branchOn i (first ≤ frame.arity.toUInt16)
  | .push =>
    onCore (onTop (Frame.push first))
    return .proceeded
  | .pull =>
    if i.store.isSome then
      let v ← match operands with
        | stack :: _ => onMemory (pullUserStack stack.toNat)
        | [] => onCore (onTop Frame.pop)
      storeResult i v
    else
      let v ← onCore (onTop Frame.pop)
      onCore (writeIndirect first.toUInt8 v)
      return .proceeded
  | .pop =>
    let _ ← onCore (onTop Frame.pop)
    return .proceeded
  | .popStack =>
    match operands with
    | _ :: stack :: _ => onMemory (dropUserStack stack.toNat first)
    | _ => onCore (popTimes first.toNat)
    return .proceeded
  | .pushStack =>
    let room ← onMemory (pushUserStack second.toNat first)
    branchOn i room
  | other => throw (.fault (.invalidStory (.unhandled .stack other)))

section Routine

theorem pop_tracks : Tracks Core.Fits (onTop Frame.pop) Core.pop := .onTop pop_mild Frame.pop_works

theorem popTimes_tracks {k : Nat} : Tracks Core.Fits (popTimes k) (Machine.popTimes k) := by
  induction k with
  | zero => exact .pure _
  | succ k ih => exact .bind pop_tracks fun _ => ih

theorem unwindTo_tracks {depth : Nat} :
    Tracks CallStack.Fits (plainly (CallStack.unwindTo depth)) (CallStack.unwindTo depth) := by
  apply Tracks.plainly
  · intro s e t h
    unfold CallStack.unwindTo at h
    split at h
    · cases h
      trivial
    · cases h
  · intro s hs
    unfold CallStack.unwindTo
    split
    · exact hs
    · exact fun f hf => hs f (List.mem_of_mem_drop hf)

theorem top_tracks :
    Tracks CallStack.Fits (plainly (Action.reading CallStack.top)) (Action.reading CallStack.top) := by
  refine .plainly (fun s e t h => ?_) (.reading _)
  cases s with
  | nil =>
    cases h
    trivial
  | cons f rest => cases h

theorem executeRoutine_tracks (hi : i.Fits) (hf : i.mnemonic.family? = some .stack) :
    Tracks (Machine.Fits n) (executeRoutine i operands : Work (Machine η) Outcome)
      (Machine.executeRoutine i operands) := by
  unfold executeRoutine Machine.executeRoutine
  cases hm : i.mnemonic with
  | call1s | call2s | callVs | callVs2 | call1n | call2n | callVn | callVn2 => exact call_tracks
  | ret | rtrue | rfalse => exact returnValue_tracks
  | retPopped => exact .bind (.onCore pop_tracks) fun _ => returnValue_tracks
  | catchFrame => exact .bind .get fun _ => storeResult_tracks
  | throwFrame => exact .bind (.onCore (.inFrames unwindTo_tracks)) fun _ => returnValue_tracks
  | checkArgCount => exact .bind (.onCore (.inFrames top_tracks)) fun _ => branchOn_tracks hi
  | push => exact .bind (.onCore (.onTop push_mild Frame.push_works)) fun _ => .pure _
  | pull =>
    refine .ite (fun _ => ?_) fun _ => ?_
    · cases operands with
      | nil => exact .bind (.onCore pop_tracks) fun _ => storeResult_tracks
      | cons stack rest =>
        exact .bind (.onMemory fun _ => pullUserStack_tracks stack.toNat_lt) fun _ => storeResult_tracks
    · refine .bind (.onCore pop_tracks) fun _ => ?_
      exact .bind (.onCore writeIndirect_tracks) fun _ => .pure _
  | pop => exact .bind (.onCore pop_tracks) fun _ => .pure _
  | popStack =>
    match operands with
    | _ :: stack :: _ =>
      exact .bind (.onMemory fun _ => dropUserStack_tracks stack.toNat_lt) fun _ => .pure _
    | [] => exact .bind (.onCore popTimes_tracks) fun _ => .pure _
    | [_] => exact .bind (.onCore popTimes_tracks) fun _ => .pure _
  | pushStack =>
    refine .bind (.onMemory fun _ => pushUserStack_tracks (UInt16.toNat_lt _)) fun _ => ?_
    exact branchOn_tracks hi
  | _ =>
    rw [hm] at hf
    cases hf

end Routine

/-! ### Objects -/

def executeObject [Host η] (i : Instruction) (operands : List UInt16) :
    Work (Machine η) Outcome := do
  let obj := operands.getD 0 0
  let b := operands.getD 1 0
  if obj = 0 ∧ i.mnemonic ≠ .getPropLen then return ← passOver i
  match i.mnemonic with
  | .getSibling =>
    let v ← readObjects fun t m => relation t m obj .sibling
    storeTo i.store v
    branchOn i (v ≠ 0)
  | .getChild =>
    let v ← readObjects fun t m => relation t m obj .child
    storeTo i.store v
    branchOn i (v ≠ 0)
  | .getParent =>
    let v ← readObjects fun t m => relation t m obj .parent
    storeResult i v
  | .getPropLen =>
    let n ← readObjects fun t m => propertyLength t m obj.toNat
    storeResult i (UInt16.ofNat n)
  | .removeObj => changeObjects fun t => remove t obj
  | .printObj =>
    let name ← readMemory (objectName obj)
    output name
    return .proceeded
  | .jin =>
    let v ← readObjects fun t m => relation t m obj .parent
    branchOn i (v = b)
  | .testAttr =>
    let set ← readObjects fun t m => testAttribute t m obj b
    branchOn i set
  | .setAttr => changeObjects fun t => putAttribute t obj b true
  | .clearAttr => changeObjects fun t => putAttribute t obj b false
  | .insertObj => if b = 0 then return .proceeded else changeObjects fun t => insert t obj b
  | .getProp =>
    let v ← readObjects fun t m => property t m obj b.toUInt8
    storeResult i v
  | .getPropAddr =>
    let a ← readObjects fun t m => propertyAddress t m obj b.toUInt8
    storeResult i (UInt16.ofNat a)
  | .getNextProp =>
    let n ← readObjects fun t m => nextProperty t m obj b.toUInt8
    storeResult i n.toUInt16
  | .putProp => changeObjects fun t => setProperty t obj b.toUInt8 (operands.getD 2 0)
  | other => throw (.fault (.invalidStory (.unhandled .object other)))

section Object

variable [Host η]

theorem executeObject_tracks (hi : i.Fits) (hf : i.mnemonic.family? = some .object) :
    Tracks (Machine.Fits n) (executeObject i operands : Work (Machine η) Outcome)
      (Machine.executeObject i operands) := by
  unfold executeObject Machine.executeObject
  dsimp only
  refine .ite (fun _ => passOver_tracks hi) fun _ => ?_
  cases hm : i.mnemonic with
  | getSibling | getChild =>
    refine .bind (readObjects_tracks fun _ _ => relation_agrees) fun _ => ?_
    exact .bind storeTo_tracks fun _ => branchOn_tracks hi
  | getParent =>
    exact .bind (readObjects_tracks fun _ _ => relation_agrees) fun _ => storeResult_tracks
  | getPropLen =>
    refine .bind (readObjects_tracks fun _ _ _ => propertyLength_agrees (word_lt _)) fun _ => ?_
    exact storeResult_tracks
  | removeObj => exact changeObjects_tracks fun _ _ => remove_tracks
  | printObj =>
    exact .bind (.readMemory objectName_agrees) fun _ => .bind output_tracks fun _ => .pure _
  | jin => exact .bind (readObjects_tracks fun _ _ => relation_agrees) fun _ => branchOn_tracks hi
  | testAttr =>
    exact .bind (readObjects_tracks fun _ _ => testAttribute_agrees) fun _ => branchOn_tracks hi
  | setAttr | clearAttr => exact changeObjects_tracks fun _ _ => putAttribute_tracks
  | insertObj => exact .ite (fun _ => .pure _) fun _ => changeObjects_tracks fun _ _ => insert_tracks
  | getProp =>
    exact .bind (readObjects_tracks fun _ _ => property_agrees) fun _ => storeResult_tracks
  | getPropAddr =>
    exact .bind (readObjects_tracks fun _ _ => propertyAddress_agrees) fun _ => storeResult_tracks
  | getNextProp =>
    exact .bind (readObjects_tracks fun _ _ => nextProperty_agrees) fun _ => storeResult_tracks
  | putProp => exact changeObjects_tracks fun _ _ => setProperty_tracks
  | _ =>
    rw [hm] at hf
    cases hf

end Object

/-! ### Display -/

def command [Host η] (c : Screen.Command) : Work (Machine η) Outcome := do
  perform c
  return .proceeded

def print [Host η] (text : List Char) : Work (Machine η) Outcome := do
  output text
  return .proceeded

def executeDisplay [Host η] (i : Instruction) (operands : List UInt16) :
    Work (Machine η) Outcome := do
  let a := operands.getD 0 0
  let b := operands.getD 1 0
  match i.mnemonic with
  | .print =>
    i.text.forM printStringAt
    return .proceeded
  | .printRet =>
    i.text.forM printStringAt
    outputNewline
    returnValue 1
  | .newLine => print ['\n']
  | .showStatus =>
    if (← get).version ≤ 3 then showStatus
    return .proceeded
  | .printAddr =>
    printStringAt a.toNat
    return .proceeded
  | .printPaddr =>
    let m := (← get).core.memory
    printStringAt (← unpack m m.stringsOffset a)
    return .proceeded
  | .printChar =>
    match ← zsciiChar a with
    | some c => print [c]
    | none => return .proceeded
  | .printNum => print (signed a.toInt16.toInt).toList
  | .printTable =>
    printRows b.toNat (operands.getD 3 0).toNat a.toNat (operands.getD 2 1).toNat
    return .proceeded
  | .printUnicode => print [(Machine.unicodeChar? a).getD '?']
  | .checkUnicode =>
    storeResult i (if (Machine.unicodeChar? a).all Machine.isControl then 0 else 3)
  | .splitWindow => command (.splitWindow a)
  | .setWindow => command (.setWindow a.toUInt8)
  | .eraseWindow => command (.eraseWindow a.toInt16)
  | .eraseLine => if a = 1 then command .eraseLine else return .proceeded
  | .setCursor => command (.setCursor a b)
  | .getCursor =>
    let (line, column) ← plainly (Machine.ask Host.cursor)
    onMemory (setWord a.toNat line)
    onMemory (setWord (← add 32 a.toNat 2) column)
    return .proceeded
  | .setTextStyle => command (.setTextStyle a)
  | .bufferMode => command (.setBufferMode (a ≠ 0))
  | .outputStream =>
    selectStream a.toInt16 b
    return .proceeded
  | .inputStream | .soundEffect | .setTrueColour => return .proceeded
  | .setColour => command (.setColour a b)
  | .setFont => storeResult i (if a ≤ 1 then 1 else 0)
  | other => throw (.fault (.invalidStory (.unhandled .display other)))

section Display

variable [Host η]

theorem command_tracks {c : Screen.Command} :
    Tracks (Machine.Fits n) (command c : Work (Machine η) Outcome) (Machine.command c) :=
  .bind .ask fun _ => .pure _

theorem print_tracks {text : List Char} :
    Tracks (Machine.Fits n) (print text : Work (Machine η) Outcome) (Machine.print text) :=
  .bind output_tracks fun _ => .pure _

theorem printText_tracks (hi : i.Fits) :
    Tracks (Machine.Fits n) (i.text.forM printStringAt : Work (Machine η) Unit)
      (i.text.forM Machine.printStringAt) := by
  cases ht : i.text with
  | none => exact .pure _
  | some a => exact printStringAt_tracks (hi.text a ht)

theorem printTable_tracks (a width skip rows : UInt16) :
    Tracks (Machine.Fits n) (printRows width.toNat skip.toNat a.toNat rows.toNat : Work (Machine η) Unit)
      (Machine.printRows width.toNat (width.toNat + skip.toNat) a.toNat rows.toNat) := by
  -- Tables of no width are the longest that are walked through: 65535 rows, 65535 bytes apart.
  have ha := a.toNat_lt
  have hr := rows.toNat_lt
  have hs := skip.toNat_lt
  have far : rows.toNat * skip.toNat ≤ 65535 * 65535 := Nat.mul_le_mul (by omega) (by omega)
  exact printRows_tracks width.toNat_lt hs (by omega)

theorem executeDisplay_tracks (hi : i.Fits) (hf : i.mnemonic.family? = some .display) :
    Tracks (Machine.Fits n) (executeDisplay i operands : Work (Machine η) Outcome)
      (Machine.executeDisplay i operands) := by
  unfold executeDisplay Machine.executeDisplay
  dsimp only
  cases hm : i.mnemonic with
  | print => exact .bind (printText_tracks hi) fun _ => .pure _
  | printRet =>
    exact .bind (printText_tracks hi) fun _ => .bind output_tracks fun _ => returnValue_tracks
  | newLine | printNum | printUnicode => exact print_tracks
  | showStatus =>
    refine .bind .get fun s => .ite (fun _ => ?_) fun _ => .pure _
    exact .bind showStatus_tracks fun _ => .pure _
  | printAddr => exact .bind (printStringAt_tracks (word_lt _)) fun _ => .pure _
  | printPaddr =>
    refine .bind .get fun s => ?_
    rw [unpack_eq, lift_ok_bind]
    exact .bind (printStringAt_tracks (Nat.lt_trans (unpack_lt ..) (by decide))) fun _ => .pure _
  | printChar =>
    dsimp only
    rw [zsciiChar_eq, lift_ok_bind]
    cases Zscii.toChar? (operands.getD 0 0) with
    | none => exact .pure _
    | some c => exact print_tracks
  | printTable => exact .bind (printTable_tracks _ _ _ _) fun _ => .pure _
  | checkUnicode | setFont => exact storeResult_tracks
  | splitWindow | setWindow | eraseWindow | setCursor | setTextStyle | bufferMode | setColour =>
    exact command_tracks
  | eraseLine => exact .ite (fun _ => command_tracks) fun _ => .pure _
  | getCursor =>
    have ha := UInt16.toNat_lt (operands.getD 0 0)
    refine .bind .ask fun (line, column) => ?_
    refine .bind (.onMemory fun _ => setWord_tracks (word_lt _)) fun _ => ?_
    rw [add_of_lt (by omega), lift_ok_bind]
    exact .bind (.onMemory fun _ => setWord_tracks (by omega)) fun _ => .pure _
  | outputStream => exact .bind selectStream_tracks fun _ => .pure _
  | inputStream | soundEffect | setTrueColour => exact .pure _
  | _ =>
    rw [hm] at hf
    cases hf

end Display

/-! ### Input -/

def keyCode (c : Char) : Calc UInt16 := do
  if c = '\x1b' then return 27
  else if c = '\x08' ∨ c = '\x7f' then return 8
  else return (← zsciiCode c).getD Zscii.unknown

def executeInput [Host η] (i : Instruction) (operands : List UInt16) :
    Work (Machine η) Outcome := do
  let version := (← get).version
  let operand (k : Nat) := operands.getD k 0
  match i.mnemonic with
  | .sread | .aread =>
    if version ≤ 3 then showStatus
    let buffer := (operand 0).toNat
    let parse := (operand 1).toNat
    let line ← plainly (Machine.ask Host.readLine)
    onMemory (storeLine version buffer line)
    if parse ≠ 0 then onMemory (tokenise version buffer parse false)
    storeResult i Zscii.newline
  | .readChar =>
    let c ← plainly (Machine.ask Host.readKey)
    storeResult i (← keyCode c)
  | .tokenise =>
    onMemory (tokenise version (operand 0).toNat (operand 1).toNat (operand 3 ≠ 0))
    return .proceeded
  | .encodeText =>
    let source ← add 32 (operand 0).toNat (operand 2).toNat
    onMemory (encodeAt version source (operand 1).toNat (operand 3).toNat)
    return .proceeded
  | other => throw (.fault (.invalidStory (.unhandled .input other)))

section Input

theorem keyCode_eq (c : Char) : keyCode c = .ok (Machine.keyCode c) := by
  unfold keyCode Machine.keyCode
  split
  · rfl
  · split
    · rfl
    · rw [zsciiCode_eq]
      rfl

variable [Host η]

theorem readLine_tracks {version : UInt8} (buffer parse : UInt16) :
    Tracks (Machine.Fits n)
      (do
        let line ← plainly (Machine.ask Host.readLine)
        onMemory (storeLine version buffer.toNat line)
        if parse.toNat ≠ 0 then onMemory (tokenise version buffer.toNat parse.toNat false)
        storeResult i Zscii.newline : Work (Machine η) Outcome)
      (do
        let line ← Machine.ask Host.readLine
        Machine.onMemory (Machine.storeLine version buffer.toNat line)
        if parse.toNat ≠ 0 then
          Machine.onMemory (Machine.tokenise version buffer.toNat parse.toNat false)
        Machine.storeResult i Zscii.newline) := by
  refine .bind .ask fun line => .bind (.onMemory fun _ => storeLine_tracks buffer.toNat_lt) fun _ => ?_
  refine .ite (fun _ => ?_) fun _ => storeResult_tracks
  refine .bind (.onMemory fun _ => ?_) fun _ => storeResult_tracks
  exact tokenise_tracks buffer.toNat_lt parse.toNat_lt

theorem executeInput_tracks (hf : i.mnemonic.family? = some .input) :
    Tracks (Machine.Fits n) (executeInput i operands : Work (Machine η) Outcome)
      (Machine.executeInput i operands) := by
  unfold executeInput Machine.executeInput
  refine .bind .get fun s => ?_
  dsimp only
  cases hm : i.mnemonic with
  | sread | aread =>
    refine .ite (fun _ => .bind showStatus_tracks fun _ => ?_) fun _ => ?_
    all_goals exact readLine_tracks _ _
  | readChar =>
    refine .bind .ask fun c => ?_
    rw [keyCode_eq, lift_ok_bind]
    exact storeResult_tracks
  | tokenise =>
    refine .bind (.onMemory fun _ => ?_) fun _ => .pure _
    exact tokenise_tracks (UInt16.toNat_lt _) (UInt16.toNat_lt _)
  | encodeText =>
    have h0 := UInt16.toNat_lt (operands.getD 0 0)
    have h2 := UInt16.toNat_lt (operands.getD 2 0)
    dsimp only
    rw [add_of_lt (by omega), lift_ok_bind]
    refine .bind (.onMemory fun _ => ?_) fun _ => .pure _
    exact encodeAt_tracks (by omega) (word_lt _) (UInt16.toNat_lt _)
  | _ =>
    rw [hm] at hf
    cases hf

end Input

/-! ### Control -/

def snapshot (s : Machine η) (store : Option UInt8) : Calc Snapshot := do
  span 0 (min s.core.memory.staticMemoryBase.toNat s.core.memory.size) s.core.memory.size
  return s.snapshot store

def revert (p : Snapshot) : Work (Machine η) Unit := do
  onMemory (copyFrom p.memory)
  onCore (inFrames (plainly (set p.frames)))
  storeTo p.store 2

def restart [Host η] : Work (Machine η) Unit := do
  onCore reset
  modify fun s => { s with streams := { s.streams with tables := [] }, undo := [] }
  plainly Machine.publishHeader

def executeControl [Host η] (i : Instruction) (operands : List UInt16) :
    Work (Machine η) Outcome := do
  match i.mnemonic with
  | .jump =>
    let offset ← element operands[0]?
    jumpBy i offset.toInt16.toInt
  | .nop => return .proceeded
  | .quit =>
    perform .flush
    return .quit
  | .restart =>
    restart
    return .proceeded
  | .verify =>
    let core := (← get).core
    let sum ← checksum core
    branchOn i (core.memory.checksumField = sum)
  | .piracy => branchOn i true
  | .save | .restore =>
    storeTo i.store 0
    branchOn i false
  | .saveUndo =>
    let s ← get
    plainly (Machine.keep (← snapshot s i.store))
    storeResult i 1
  | .restoreUndo =>
    match (← get).undo with
    | [] => storeResult i 0
    | newest :: older =>
      modify fun s => { s with undo := older }
      revert newest
      return .proceeded
  | other => throw (.fault (.invalidStory (.unhandled .control other)))

section Control

theorem snapshot_eq (s : Machine η) (store : Option UInt8) :
    snapshot s store = .ok (s.snapshot store) := by
  rw [snapshot, span_of_le (Nat.zero_le _) (Nat.min_le_right ..)]
  rfl

theorem snapshot_fits {s : Machine η} (hs : s.Fits n) (store : Option UInt8) :
    (s.snapshot store).Fits := by
  have hm := s.core.memory.size_le
  have part : (s.snapshot store).memory.size ≤ s.core.memory.bytes.size := Array.size_extract_le'
  exact ⟨hs.core.frames, by omega⟩

theorem keep_tracks {p : Snapshot} (hp : p.Fits) :
    Tracks (Machine.Fits n) (plainly (Machine.keep p : Action (Machine η) Unit))
      (Machine.keep p) := by
  refine .plainly (fun _ _ _ h => by cases h) fun s hs => ?_
  have all : ∀ q ∈ p :: s.undo, q.Fits := List.forall_mem_cons.mpr ⟨hp, hs.undo⟩
  exact ⟨hs.core, fun q hq => all q (List.mem_of_mem_take hq), hs.tables, hs.count⟩

theorem revert_tracks {p : Snapshot} (hp : p.Fits) :
    Tracks (Machine.Fits n) (revert p : Work (Machine η) Unit) (Machine.revert p) := by
  refine .bind (.onMemory fun _ => copyFrom_tracks hp.memory) fun _ => .bind (.onCore ?_) fun _ => ?_
  · exact .inFrames (.plainly (fun _ _ _ h => by cases h) fun _ _ => hp.frames)
  · exact storeTo_tracks

variable [Host η]

theorem restart_tracks :
    Tracks (Machine.Fits n) (restart : Work (Machine η) Unit) Machine.restart := by
  refine .bind (.onCore reset_tracks) fun _ => .bind (.modify fun s hs => ?_) fun _ => ?_
  · exact ⟨hs.core, List.forall_mem_nil _, List.forall_mem_nil _, hs.count⟩
  · refine .plainly (fun _ _ _ h => by cases h) fun s hs => ?_
    exact ⟨⟨hs.core.frames, (Machine.publish_sameSize ..).trans hs.core.size⟩, hs.undo, hs.tables,
      hs.count⟩

theorem executeControl_tracks (hi : i.Fits) (hl : operands.length = i.operands.length)
    (hf : i.mnemonic.family? = some .control) :
    Tracks (Machine.Fits n) (executeControl i operands : Work (Machine η) Outcome)
      (Machine.executeControl i operands) := by
  unfold executeControl Machine.executeControl
  cases hm : i.mnemonic with
  | jump =>
    -- a jump is decoded with one operand, so that there is a first one
    obtain ⟨offset, rfl⟩ := List.length_eq_one_iff.mp (hl.trans (hi.jump hm))
    exact jumpBy_tracks hi offset.toInt16.le_toInt offset.toInt16.toInt_lt
  | nop => exact .pure _
  | quit => exact .bind .ask fun _ => .pure _
  | restart => exact .bind restart_tracks fun _ => .pure _
  | verify =>
    refine .bind .get fun s => ?_
    dsimp only
    rw [checksum_eq, lift_ok_bind]
    exact branchOn_tracks hi
  | piracy => exact branchOn_tracks hi
  | save | restore => exact passOver_tracks hi
  | saveUndo =>
    refine .bind_get fun s hs => ?_
    rw [snapshot_eq, lift_ok_bind]
    exact .bind (keep_tracks (snapshot_fits hs _)) fun _ => storeResult_tracks
  | restoreUndo =>
    refine .bind_get fun s hs => ?_
    cases hu : s.undo with
    | nil => exact storeResult_tracks
    | cons newest older =>
      have all := hs.undo
      rw [hu] at all
      obtain ⟨first, rest⟩ := List.forall_mem_cons.mp all
      refine .bind (.modify fun t ht => ⟨ht.core, rest, ht.tables, ht.count⟩) fun _ => ?_
      exact .bind (revert_tracks first) fun _ => .pure _
  | _ =>
    rw [hm] at hf
    cases hf

end Control

/-! ### Any instruction -/

def resolveOperand (o : Operand) : Work (Machine η) UInt16 :=
  match o.kind with
  | .«variable» => onCore (readVariable o.raw.toUInt8)
  | _ => return o.raw

def resolveOperands : List Operand → Work (Machine η) (List UInt16)
  | [] => return []
  | o :: rest => do return (← resolveOperand o) :: (← resolveOperands rest)

def executeFamily [Host η] (family : Family) (i : Instruction) (operands : List UInt16) :
    Work (Machine η) Outcome :=
  match family with
  | .math => executeMath i operands
  | .memory => executeTable i operands
  | .stack => executeRoutine i operands
  | .object => executeObject i operands
  | .display => executeDisplay i operands
  | .input => executeInput i operands
  | .control => executeControl i operands

def execute [Host η] (i : Instruction) : Work (Machine η) Outcome := do
  let operands ← resolveOperands i.operands
  if (← get).version < i.descriptor.minVersion then return ← passOver i
  match i.mnemonic.family? with
  | none => passOver i
  | some family => executeFamily family i operands

section Any

theorem resolveOperand_tracks {o : Operand} :
    Tracks (Machine.Fits n) (resolveOperand o : Work (Machine η) UInt16)
      (Machine.resolveOperand o) := by
  unfold resolveOperand Machine.resolveOperand
  cases o.kind with
  | «variable» => exact .onCore readVariable_tracks
  | large => exact .pure _
  | small => exact .pure _

theorem resolveOperands_tracks {os : List Operand} :
    Tracks (Machine.Fits n) (resolveOperands os : Work (Machine η) (List UInt16))
      (Machine.resolveOperands os) := by
  induction os with
  | nil => exact .pure _
  | cons o rest ih => exact .bind resolveOperand_tracks fun _ => .bind ih fun _ => .pure _

variable [Host η]

theorem executeFamily_tracks {family : Family} (hi : i.Fits)
    (hl : operands.length = i.operands.length) (hf : i.mnemonic.family? = some family) :
    Tracks (Machine.Fits n) (executeFamily family i operands : Work (Machine η) Outcome)
      (Machine.executeFamily family i operands) := by
  cases family with
  | math => exact executeMath_tracks hi hf
  | memory => exact executeTable_tracks hi hf
  | stack => exact executeRoutine_tracks hi hf
  | object => exact executeObject_tracks hi hf
  | display => exact executeDisplay_tracks hi hf
  | input => exact executeInput_tracks hf
  | control => exact executeControl_tracks hi hl hf

theorem execute_tracks (hi : i.Fits) :
    Tracks (Machine.Fits n) (execute i : Work (Machine η) Outcome) (Machine.execute i) := by
  refine resolveOperands_tracks.bind_ok fun operands s t _ hr ht => ?_
  have hl := Machine.resolveOperands_length hr
  refine Tracks.bind .get (fun u => .ite (fun _ => passOver_tracks hi) fun _ => ?_) t ht
  cases hf : i.mnemonic.family? with
  | none => exact passOver_tracks hi
  | some family => exact executeFamily_tracks hi hl hf

end Any

end ZMachine.Checked
