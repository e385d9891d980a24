import ZMachine.Proofs.Checked.Text
import ZMachine.Proofs.Instruction.Shape

namespace ZMachine

/-- What an instruction holds fits the words it is kept in, and a jump has its operand. -/
structure Instruction.Fits (i : Instruction) : Prop where
  next : i.next < 2 ^ 32
  text : ∀ a, i.text = some a → a < 2 ^ 32
  branch : ∀ b, i.branch = some b → -2 ^ 15 ≤ b.offset ∧ b.offset < 2 ^ 15
  jump : i.mnemonic = .jump → i.operands.length = 1

namespace Checked

abbrev Fetch (α : Type) := StateT Nat Calc α

def kindsFrom (types : Nat) : Nat → Nat → Calc (List OperandKind)
  | 0, _ => return []
  | left + 1, i => do
    let places ← sub 6 (← mul 32 i 2)
    match OperandKind.ofBits? (← shiftRight 8 types places) with
    | none => return []
    | some kind => return kind :: (← kindsFrom types left (i + 1))

theorem kindsFrom_eq (types : Nat) : kindsFrom types 4 0 = .ok (kindsOfByte types) := by
  unfold kindsOfByte
  simp (disch := omega) only [kindsFrom, mul_of_lt, sub_of_le, shiftRight_of_lt, ok_bind,
    Nat.shiftRight_eq_div_pow]
  simp only [Nat.zero_mul, Nat.zero_add, Nat.one_mul, Nat.reduceAdd, Nat.reduceMul, Nat.reduceSub,
    Nat.reducePow]
  cases OperandKind.ofBits? (types / 64) with
  | none => rfl
  | some first =>
    cases OperandKind.ofBits? (types / 16) with
    | none => rfl
    | some second =>
      cases OperandKind.ofBits? (types / 4) with
      | none => rfl
      | some third =>
        cases OperandKind.ofBits? (types / 1) with
        | none => rfl
        | some fourth => rfl

def byteTable (entry : UInt8 → Descriptor) : Vector Descriptor 256 :=
  Vector.ofFn fun i => entry (UInt8.ofNat i.val)

theorem element_byteTable (entry : UInt8 → Descriptor) (b : UInt8) :
    element (byteTable entry)[b.toNat]? = .ok (entry b) := by
  rw [byteTable, Vector.getElem?_eq_getElem b.toNat_lt, Vector.getElem_ofFn, UInt8.ofNat_toNat]
  rfl

namespace Fetch

variable (m : Memory)

def byte : Fetch UInt8 := fun a => do
  let b ← Checked.byte m a
  return (b, ← add 32 a 1)

def word : Fetch UInt16 := fun a => do
  let w ← Checked.word m a
  return (w, ← add 32 a 2)

def operand (kind : OperandKind) : Fetch Operand := do
  match kind with
  | .large => return ⟨kind, ← word m⟩
  | _ => return ⟨kind, (← byte m).toUInt16⟩

def operands : List OperandKind → Fetch (List Operand)
  | [] => return []
  | kind :: rest => do return (← operand m kind) :: (← operands rest)

def branch : Fetch Branch := do
  let first := (← byte m).toNat
  let onTrue := decide (128 ≤ first)
  if first.testBit 6 then return ⟨onTrue, first % 64⟩
  let value := first % 64 * 256 + (← byte m).toNat
  return ⟨onTrue, if value < 8192 then value else (value : Int) - 16384⟩

def string : Fetch Nat := fun a => do
  let n ← stringLength m a maxStringWords 0
  return (a, ← add 32 a (← mul 32 2 n))

def descriptor (version : UInt8) : Fetch (UInt8 × Descriptor) := do
  let opcode ← byte m
  if opcode = 0xBE ∧ 5 ≤ version then
    let extension ← byte m
    return (opcode, ← element (byteTable .extended)[extension.toNat]?)
  return (opcode, ← element (byteTable (.normal version))[opcode.toNat]?)

def kinds (opcode : UInt8) (d : Descriptor) : Fetch (List OperandKind) := do
  match d.form with
  | .op0 => return []
  | .op1 => return (OperandKind.ofBits? (← shiftRight 8 opcode.toNat 4)).toList
  | .op2 => return longFormKinds opcode.toNat
  | .var | .ext =>
    let first ← kindsFrom (← byte m).toNat 4 0
    if hasTwoTypeBytes d.mnemonic then
      let second ← kindsFrom (← byte m).toNat 4 0
      return if first.length = 4 then first ++ second else first
    return first

def instruction (version : UInt8) : Fetch Instruction := do
  let address ← get
  let (opcode, descriptor) ← descriptor m version
  let operands ← operands m (← kinds m opcode descriptor)
  let store ← if descriptor.store then some <$> byte m else pure none
  let branch ← if descriptor.branch then some <$> branch m else pure none
  let text ← if hasText descriptor.mnemonic then some <$> string m else pure none
  let stop ← get
  let size ← sub stop address
  return { address, descriptor, operands, store, branch, text, next := ← add 32 address size }

end Fetch

def instruction (m : Memory) (version : UInt8) (a : Nat) : Calc Instruction :=
  (·.1) <$> Fetch.instruction m version a

def Scans {α : Type} (start : Nat) (x : Fetch α) (y : ZMachine.Fetch α) : Prop :=
  ∀ a, start ≤ a → a < 2 ^ 32 → Agrees (x a) (y a) ∧ ∀ r, y a = .ok r → start ≤ r.2 ∧ r.2 < 2 ^ 32

namespace Scans

variable {α β : Type} {start : Nat}

theorem pure (v : α) : Scans start (Pure.pure v) (Pure.pure v) := by
  intro a hs ha
  refine ⟨.ok _, ?_⟩
  rintro _ ⟨⟩
  exact ⟨hs, ha⟩

theorem bind {x : Fetch α} {y : ZMachine.Fetch α} {f : α → Fetch β} {g : α → ZMachine.Fetch β}
    (hx : Scans start x y) (hf : ∀ v, Scans start (f v) (g v)) : Scans start (x >>= f) (y >>= g) := by
  intro a hs ha
  obtain ⟨hr, hb⟩ := hx a hs ha
  refine ⟨.bind hr fun p hp => ?_, fun r h => ?_⟩
  · exact (hf p.1 p.2 (hb p hp).1 (hb p hp).2).1
  · obtain ⟨p, hp, h⟩ := ok_of_bind_except h
    exact (hf p.1 p.2 (hb p hp).1 (hb p hp).2).2 r h

theorem map {x : Fetch α} {y : ZMachine.Fetch α} (f : α → β) (h : Scans start x y) :
    Scans start (f <$> x) (f <$> y) := by
  rw [map_eq_pure_bind, map_eq_pure_bind]
  exact h.bind fun v => .pure (f v)

theorem ite {c : Prop} [Decidable c] {x x' : Fetch α} {y y' : ZMachine.Fetch α}
    (h : Scans start x y) (h' : Scans start x' y') :
    Scans start (if c then x else x') (if c then y else y') := by
  split
  · exact h
  · exact h'

theorem moves {width : Nat} {f : Nat → Calc α} {g : Nat → Except Fault α}
    (h : ∀ a < 2 ^ 32, Agrees (f a) (g a)) (inside : ∀ a v, g a = .ok v → a + width < 2 ^ 32) :
    Scans start (fun a => do let v ← f a; return (v, ← add 32 a width))
      (fun a => do return (← g a, a + width)) := by
  intro a hs ha
  refine ⟨.bind (h a ha) fun v hv => ?_, fun r hr => ?_⟩
  · rw [add_of_lt (inside a v hv)]
    exact .ok _
  · obtain ⟨v, hv, hr⟩ := ok_of_bind_except hr
    have hw := inside a v hv
    cases hr
    exact ⟨Nat.le_trans hs (Nat.le_add_right a width), hw⟩

variable {m : Memory}

theorem byte : Scans start (Fetch.byte m) (ZMachine.Fetch.byte m) := by
  refine moves (fun a ha => byte_agrees ha) fun a b hb => ?_
  have inside := Memory.byte_bound hb
  omega

theorem word : Scans start (Fetch.word m) (ZMachine.Fetch.word m) := by
  refine moves (fun a ha => word_agrees ha) fun a w hw => ?_
  have inside := Memory.word_bound hw
  omega

theorem operand {kind : OperandKind} :
    Scans start (Fetch.operand m kind) (ZMachine.Fetch.operand m kind) := by
  cases kind with
  | large => exact .bind word fun _ => .pure _
  | small => exact .bind byte fun _ => .pure _
  | «variable» => exact .bind byte fun _ => .pure _

theorem operands (kinds : List OperandKind) :
    Scans start (Fetch.operands m kinds) (ZMachine.Fetch.operands m kinds) := by
  induction kinds with
  | nil => exact .pure _
  | cons kind rest ih => exact .bind operand fun _ => .bind ih fun _ => .pure _

theorem branch : Scans start (Fetch.branch m) (ZMachine.Fetch.branch m) :=
  .bind byte fun _ => .ite (.pure _) (.bind byte fun _ => .pure _)

theorem string : Scans start (Fetch.string m) (ZMachine.Fetch.string m) := by
  intro a hs ha
  refine ⟨.bind (stringLength_start ha) fun n hn => ?_, fun r hr => ?_⟩
  · obtain ⟨words, hw, hc⟩ := ok_of_map hn
    have bound := (stringWordsFrom_bound hw).2.2
    subst hc
    rw [mul_of_lt (by omega), ok_bind, add_of_lt (by omega)]
    exact .ok _
  · obtain ⟨n, hn, hr⟩ := ok_of_bind_except hr
    obtain ⟨words, hw, hc⟩ := ok_of_map hn
    have bound := (stringWordsFrom_bound hw).2.2
    subst hc
    cases hr
    exact ⟨by dsimp only; omega, by dsimp only; omega⟩

theorem descriptor {version : UInt8} :
    Scans start (Fetch.descriptor m version) (ZMachine.Fetch.descriptor m version) := by
  refine .bind byte fun opcode => .ite (.bind byte fun extension => ?_) ?_
  · rw [element_byteTable]
    exact .pure _
  · rw [element_byteTable]
    exact .pure _

theorem kinds {opcode : UInt8} {d : Descriptor} :
    Scans start (Fetch.kinds m opcode d) (ZMachine.Fetch.kinds m opcode d) := by
  have two : Scans start
      (do
        let first ← kindsFrom (← Fetch.byte m).toNat 4 0
        if hasTwoTypeBytes d.mnemonic then
          let second ← kindsFrom (← Fetch.byte m).toNat 4 0
          return if first.length = 4 then first ++ second else first
        return first)
      (do
        let first := kindsOfByte (← ZMachine.Fetch.byte m).toNat
        if hasTwoTypeBytes d.mnemonic then
          let second := kindsOfByte (← ZMachine.Fetch.byte m).toNat
          return if first.length = 4 then first ++ second else first
        return first) := by
    refine .bind byte fun first => ?_
    rw [kindsFrom_eq]
    refine .ite (.bind byte fun second => ?_) (.pure _)
    rw [kindsFrom_eq]
    exact .pure _
  unfold Fetch.kinds ZMachine.Fetch.kinds
  cases d.form with
  | op0 => exact .pure _
  | op1 =>
    dsimp only
    rw [shiftRight_of_lt (by decide), Nat.shiftRight_eq_div_pow]
    exact .pure _
  | op2 => exact .pure _
  | var => exact two
  | ext => exact two

theorem optional {c : Bool} {x : Fetch α} {y : ZMachine.Fetch α} {f : Option α → Fetch β}
    {g : Option α → ZMachine.Fetch β} (hx : Scans start x y) (hf : ∀ v, Scans start (f v) (g v)) :
    Scans start (if c then (some <$> x) >>= f else Pure.pure none >>= f)
      (if c then (some <$> y) >>= g else Pure.pure none >>= g) :=
  .ite (.bind (.map _ hx) hf) (.bind (.pure _) hf)

theorem measured (f : Nat → α) :
    Scans start
      (do
        let stop ← MonadState.get
        let size ← sub stop start
        let next ← add 32 start size
        Pure.pure (f next))
      (do
        let stop ← MonadState.get
        Pure.pure (f stop)) := by
  intro a hs ha
  have whole : start + (a - start) = a := by omega
  refine ⟨?_, ?_⟩
  · change Agrees ((do
      let size ← sub a start
      let next ← add 32 start size
      Pure.pure (f next) : Fetch α) a) (.ok (f a, a))
    rw [sub_of_le hs]
    change Agrees ((do
      let next ← add 32 start (a - start)
      Pure.pure (f next) : Fetch α) a) (.ok (f a, a))
    rw [add_of_lt (by omega), whole]
    exact .ok _
  · rintro _ ⟨⟩
    exact ⟨hs, ha⟩

theorem from_here {f : Nat → Fetch α} {g : Nat → ZMachine.Fetch α} (h : start < 2 ^ 32)
    (hf : Scans start (f start) (g start)) :
    Agrees ((MonadState.get >>= f) start) ((MonadState.get >>= g) start) :=
  (hf start (Nat.le_refl start) h).1

end Scans

section Whole

variable {m : Memory} {version : UInt8} {a : Nat}

theorem instruction_agrees (ha : a < 2 ^ 32) :
    Agrees (instruction m version a) (m.instruction version a) := by
  refine .map _ (Scans.from_here ha ?_)
  refine .bind .descriptor fun (opcode, d) => .bind .kinds fun ks => .bind (.operands ks) fun os => ?_
  refine .optional .byte fun store => .optional .branch fun branch => .optional .string fun text => ?_
  exact .measured _

theorem optional_lt {α : Type} {present : Bool} {x : Fetch α} {y : ZMachine.Fetch α}
    {o : Option α} {b : Nat} (hx : Scans 0 x y) (ha : a < 2 ^ 32)
    (h : ZMachine.Fetch.optional present y a = .ok (o, b)) : b < 2 ^ 32 := by
  have whole : Scans 0 (if present then some <$> x else pure none)
      (ZMachine.Fetch.optional present y) := .ite (.map _ hx) (.pure _)
  exact ((whole a (Nat.zero_le a) ha).2 _ h).2

theorem branch_bound {b : Branch} {c : Nat} (h : ZMachine.Fetch.branch m a = .ok (b, c)) :
    -2 ^ 15 ≤ b.offset ∧ b.offset < 2 ^ 15 := by
  obtain ⟨first, d, -, h⟩ := ZMachine.Fetch.ok_of_bind h
  dsimp only at h
  split at h
  · cases h
    dsimp only
    omega
  · obtain ⟨second, e, -, h⟩ := ZMachine.Fetch.ok_of_bind h
    have hs := second.toNat_lt
    cases h
    dsimp only
    split <;> omega

theorem instruction_fits {i : Instruction} (ha : a < 2 ^ 32) (h : m.instruction version a = .ok i) :
    i.Fits := by
  have shape := Memory.instruction_shaped h
  obtain ⟨⟨_, b⟩, hi, ⟨⟩⟩ := ok_of_bind_except h
  obtain ⟨opcode, ks, a₁, a₂, a₃, a₄, a₅, hd, hks, hos, hstore, hbranch, htext, -, hnext⟩ :=
    ZMachine.Fetch.instruction_parts hi
  have h₁ : a₁ < 2 ^ 32 := ((Scans.descriptor a (Nat.zero_le a) ha).2 _ hd).2
  have h₂ : a₂ < 2 ^ 32 := ((Scans.kinds a₁ (Nat.zero_le a₁) h₁).2 _ hks).2
  have h₃ : a₃ < 2 ^ 32 := ((Scans.operands ks a₂ (Nat.zero_le a₂) h₂).2 _ hos).2
  have h₄ : a₄ < 2 ^ 32 := optional_lt .byte h₃ hstore
  have h₅ : a₅ < 2 ^ 32 := optional_lt .branch h₄ hbranch
  refine ⟨?_, fun t ht => ?_, fun br hbr => ?_, fun hj => ?_⟩
  · exact Nat.lt_of_le_of_lt (Nat.le_of_eq hnext) (optional_lt .string h₅ htext)
  · rw [ht] at htext
    obtain ⟨n, -, hs⟩ := ok_of_bind_except (ZMachine.Fetch.ok_of_optional_some htext)
    cases hs
    exact h₅
  · rw [hbr] at hbranch
    exact branch_bound (ZMachine.Fetch.ok_of_optional_some hbranch)
  · exact shape.one (shape.controlled.jump hj)

end Whole

end Checked

end ZMachine
