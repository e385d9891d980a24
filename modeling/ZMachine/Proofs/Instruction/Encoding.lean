import Mathlib.Data.List.Forall2
import ZMachine.Proofs.Instruction.Shape
import ZMachine.Proofs.Memory.Access

namespace ZMachine

/-- These bytes stand in memory from `a`. -/
def Memory.Shows (m : Memory) : Nat → List UInt8 → Prop
  | _, [] => True
  | a, b :: rest => m.byte a = .ok b ∧ m.Shows (a + 1) rest

theorem Memory.shows_append {m : Memory} {a : Nat} {xs ys : List UInt8} :
    m.Shows a (xs ++ ys) ↔ m.Shows a xs ∧ m.Shows (a + xs.length) ys := by
  induction xs generalizing a with
  | nil => simp [Shows]
  | cons x xs ih =>
    rw [List.cons_append, Shows, Shows, ih, and_assoc, List.length_cons, Nat.add_comm xs.length, Nat.add_assoc]

def IsBranch : List UInt8 → Prop
  | [first] => first.toNat.testBit 6 = true
  | [first, _] => first.toNat.testBit 6 = false
  | _ => False

/-- What follows the operands: the variable to store to and the branch, if the operation has them. -/
def Operation.IsTail (op : Operation) (tail : List UInt8) : Prop :=
  ∃ store branch, tail = store ++ branch ∧ store.length = op.store.toNat ∧
    if op.branch then IsBranch branch else branch = []

namespace Fetch

variable {α β : Type} {m : Memory} {version : UInt8} {a b c : Nat} {bytes : List UInt8}

theorem bind_of_ok {x : Fetch α} {v : α} (f : α → Fetch β) (h : x a = .ok (v, c)) : (x >>= f) a = f v c := by
  change Except.bind (x a) (fun p => f p.1 p.2) = _
  rw [h]
  rfl

theorem map_of_ok {x : Fetch α} {v : α} (f : α → β) (h : x a = .ok (v, c)) : (f <$> x) a = .ok (f v, c) := by
  rw [map_eq_pure_bind, bind_of_ok _ h]
  rfl

theorem byte_of_ok {v : UInt8} (h : m.byte a = .ok v) : byte m a = .ok (v, a + 1) := by
  rw [byte, h]
  rfl

theorem branch_of_shows (h : IsBranch bytes) :
    ∃ br, ∀ m a, m.Shows a bytes → branch m a = .ok (br, a + bytes.length) := by
  match bytes, h with
  | [first], h =>
    refine ⟨⟨decide (128 ≤ first.toNat), first.toNat % 64⟩, fun m a hm => ?_⟩
    rw [branch, bind_of_ok _ (byte_of_ok hm.1)]
    exact congrFun (if_pos h) (a + 1)
  | [first, second], h =>
    let value := first.toNat % 64 * 256 + second.toNat
    refine ⟨⟨decide (128 ≤ first.toNat), if value < 8192 then value else (value : Int) - 16384⟩,
      fun m a hm => ?_⟩
    obtain ⟨hfirst, hsecond, -⟩ := hm
    have hlong : ¬ first.toNat.testBit 6 = true := by
      rw [show first.toNat.testBit 6 = false from h]
      decide
    rw [branch, bind_of_ok _ (byte_of_ok hfirst)]
    refine (congrFun (if_neg hlong) (a + 1)).trans ?_
    rw [bind_of_ok _ (byte_of_ok hsecond)]
    rfl

theorem optional_of_ok {x : Fetch α} {v : α} (h : x a = .ok (v, c)) :
    optional true x a = .ok (some v, c) := by
  rw [optional, if_pos rfl, map_of_ok some h]

theorem tail_of_shows {op : Operation} (h : op.IsTail bytes) :
    ∃ store br, ∀ m a, m.Shows a bytes → ∃ c,
      optional op.store (byte m) a = .ok (store, c) ∧
      optional op.branch (branch m) c = .ok (br, a + bytes.length) := by
  obtain ⟨sb, bb, rfl, hsb, hbb⟩ := h
  have hstore : ∃ store, ∀ m a, m.Shows a sb →
      optional op.store (byte m) a = .ok (store, a + sb.length) := by
    cases hop : op.store with
    | false =>
      rw [hop] at hsb
      obtain rfl := List.eq_nil_of_length_eq_zero hsb
      exact ⟨none, fun m a _ => rfl⟩
    | true =>
      rw [hop] at hsb
      obtain ⟨v, rfl⟩ := List.length_eq_one_iff.1 hsb
      exact ⟨some v, fun m a hm => optional_of_ok (byte_of_ok hm.1)⟩
  have hbranch : ∃ br, ∀ m a, m.Shows a bb →
      optional op.branch (branch m) a = .ok (br, a + bb.length) := by
    cases hop : op.branch with
    | false =>
      rw [hop] at hbb
      obtain rfl : bb = [] := hbb
      exact ⟨none, fun m a _ => rfl⟩
    | true =>
      rw [hop] at hbb
      obtain ⟨br, hbr⟩ := branch_of_shows hbb
      exact ⟨some br, fun m a hm => optional_of_ok (hbr m a hm)⟩
  obtain ⟨store, hstore⟩ := hstore
  obtain ⟨br, hbranch⟩ := hbranch
  refine ⟨store, br, fun m a hm => ?_⟩
  obtain ⟨hms, hmb⟩ := Memory.shows_append.1 hm
  refine ⟨_, hstore m a hms, ?_⟩
  rw [List.length_append, ← Nat.add_assoc]
  exact hbranch m _ hmb

theorem optional_bind {present : Bool} {x : Fetch α} {f : Option α → Fetch β} {o : Option α}
    (h : optional present x a = .ok (o, c)) :
    (if present = true then some <$> x >>= f else pure none >>= f) a = f o c := by
  unfold optional at h
  split at h
  · next hp => rw [if_pos hp, bind_of_ok f h]
  · next hp => rw [if_neg hp, bind_of_ok f h]

theorem instruction_of_parts {opcode : UInt8} {d : Descriptor} {ks : List OperandKind} {os : List Operand}
    {store : Option UInt8} {br : Option Branch} {text : Option Nat} {a₁ a₂ a₃ a₄ a₅ : Nat}
    (hd : descriptor m version a = .ok ((opcode, d), a₁)) (hks : kinds m opcode d a₁ = .ok (ks, a₂))
    (hos : operands m ks a₂ = .ok (os, a₃)) (hstore : optional d.store (byte m) a₃ = .ok (store, a₄))
    (hbranch : optional d.branch (branch m) a₄ = .ok (br, a₅))
    (htext : optional (hasText d.mnemonic) (string m) a₅ = .ok (text, b)) :
    m.instruction version a = .ok ⟨a, d, os, store, br, text, b⟩ := by
  have hi : instruction m version a = .ok (⟨a, d, os, store, br, text, b⟩, b) := by
    have haddress : (get : Fetch Nat) a = .ok (a, a) := rfl
    refine (bind_of_ok _ haddress).trans ?_
    refine (bind_of_ok _ hd).trans ?_
    refine (bind_of_ok _ hks).trans ?_
    refine (bind_of_ok _ hos).trans ?_
    refine (optional_bind hstore).trans ?_
    refine (optional_bind hbranch).trans ?_
    exact optional_bind htext
  rw [Memory.instruction, hi]
  rfl

theorem descriptor_of_byte {opcode : UInt8} (version : UInt8) (h : m.byte a = .ok opcode) (hne : opcode ≠ 0xBE) :
    descriptor m version a = .ok ((opcode, .normal version opcode), a + 1) := by
  rw [descriptor, bind_of_ok _ (byte_of_ok h)]
  exact congrFun (if_neg fun he => hne he.1) _

theorem operand_of_byte {kind : OperandKind} {v : UInt8} (hkind : kind ≠ .large) (h : m.byte a = .ok v) :
    operand m kind a = .ok (⟨kind, v.toUInt16⟩, a + 1) := by
  obtain _ | _ | _ := kind
  · exact absurd rfl hkind
  · exact bind_of_ok _ (byte_of_ok h)
  · exact bind_of_ok _ (byte_of_ok h)

theorem operand_of_word {w : UInt16} (h : m.word a = .ok w) :
    operand m .large a = .ok (⟨.large, w⟩, a + 2) := by
  have hw : word m a = .ok (w, a + 2) := by
    rw [word, h]
    rfl
  exact bind_of_ok _ hw

theorem operands_of_bytes {kind kind' : OperandKind} {x y : UInt8} (hkind : kind ≠ .large)
    (hkind' : kind' ≠ .large) (hx : m.byte a = .ok x) (hy : m.byte (a + 1) = .ok y) :
    operands m [kind, kind'] a = .ok ([⟨kind, x.toUInt16⟩, ⟨kind', y.toUInt16⟩], a + 2) := by
  have hrest : operands m [kind'] (a + 1) = .ok ([⟨kind', y.toUInt16⟩], a + 2) :=
    bind_of_ok _ (operand_of_byte hkind' hy)
  rw [operands, bind_of_ok _ (operand_of_byte hkind hx), bind_of_ok _ hrest]
  rfl

end Fetch

def byteKind (isVariable : Bool) : OperandKind := if isVariable then .variable else .small

theorem byteKind_ne_large (isVariable : Bool) : byteKind isVariable ≠ .large := by
  cases isVariable <;> decide

def longForm (k : Nat) (first second : Bool) (x y : UInt8) : List UInt8 :=
  [UInt8.ofNat (k + 64 * first.toNat + 32 * second.toNat), x, y]

/-- Two operands with their kinds in a byte of their own, in which the other two are left out. -/
def variableForm (k : Nat) (first second : Bool) (x y : UInt8) : List UInt8 :=
  [UInt8.ofNat (0xC0 + k), UInt8.ofNat (64 * (1 + first.toNat) + 16 * (1 + second.toNat) + 15), x, y]

def smallForm (k : Nat) (x : UInt8) : List UInt8 := [UInt8.ofNat (0x90 + k), x]

/-- One operand, a small constant that is written as a large one. -/
def largeForm (k : Nat) (x : UInt8) : List UInt8 := [UInt8.ofNat (0x80 + k), 0, x]

section Table

variable {version : UInt8} {k n : Nat} {first second : Bool}

theorem toNat_opcode (hn : n < 256) : (UInt8.ofNat n).toNat = n := UInt8.toNat_ofNat_of_lt' hn

theorem opcode_ne_extending (hn : n < 256) (hne : n ≠ 0xBE) : UInt8.ofNat n ≠ 0xBE := by
  intro he
  have hto := congrArg UInt8.toNat he
  rw [toNat_opcode hn] at hto
  exact hne hto

theorem normal_longForm (hk : k < 32) :
    Descriptor.normal version (UInt8.ofNat (k + 64 * first.toNat + 32 * second.toNat)) =
      ⟨.ofTwo k, .op2, UInt8.ofNat (k + 64 * first.toNat + 32 * second.toNat)⟩ := by
  have hfirst := first.toNat_le
  have hsecond := second.toNat_le
  have hnumber : (k + 64 * first.toNat + 32 * second.toNat) % 32 = k := by omega
  rw [Descriptor.normal, toNat_opcode (by omega), if_pos (by omega), hnumber]

theorem normal_variableForm (hk : k < 32) :
    Descriptor.normal version (UInt8.ofNat (0xC0 + k)) = ⟨.ofTwo k, .var, UInt8.ofNat (0xC0 + k)⟩ := by
  have hnumber : (0xC0 + k) % 32 = k := by omega
  rw [Descriptor.normal, toNat_opcode (by omega), if_neg (by omega), if_neg (by omega), if_neg (by omega),
    if_pos (by omega), hnumber]

theorem normal_shortForm (hk : k < 16) (hn : n = 0x80 ∨ n = 0x90) :
    Descriptor.normal version (UInt8.ofNat (n + k)) = ⟨.ofOne version k, .op1, UInt8.ofNat (n + k)⟩ := by
  have hnumber : (n + k) % 16 = k := by omega
  rw [Descriptor.normal, toNat_opcode (by omega), if_neg (by omega), if_pos (by omega), hnumber]

theorem longFormKinds_longForm (hk : k < 32) :
    longFormKinds (UInt8.ofNat (k + 64 * first.toNat + 32 * second.toNat)).toNat =
      [byteKind first, byteKind second] := by
  revert k
  cases first <;> cases second <;> decide

theorem kindsOfByte_variableForm :
    kindsOfByte (UInt8.ofNat (64 * (1 + first.toNat) + 16 * (1 + second.toNat) + 15)).toNat =
      [byteKind first, byteKind second] := by
  cases first <;> cases second <;> decide

theorem ofTwo_plain (k : Nat) : hasText (Operation.ofTwo k).mnemonic = false ∧
    hasTwoTypeBytes (Operation.ofTwo k).mnemonic = false := by
  unfold Operation.ofTwo
  split <;> exact ⟨rfl, rfl⟩

theorem ofOne_plain (version : UInt8) (k : Nat) : hasText (Operation.ofOne version k).mnemonic = false := by
  unfold Operation.ofOne
  split <;> first
    | rfl
    | split <;> rfl

end Table

def Operand.Agrees (o o' : Operand) : Prop := o.raw = o'.raw ∧ (o.kind = .variable ↔ o'.kind = .variable)

/-- Two instructions that differ in nothing but the way they are written. -/
structure Instruction.Agrees (i j : Instruction) : Prop where
  mnemonic : i.mnemonic = j.mnemonic
  minVersion : i.descriptor.minVersion = j.descriptor.minVersion
  operands : List.Forall₂ Operand.Agrees i.operands j.operands
  store : i.store = j.store
  branch : i.branch = j.branch
  text : i.text = j.text
  next : i.next = j.next

namespace Fetch

variable {m m' : Memory} {version x y : UInt8} {a a' b k : Nat} {first second : Bool} {op : Operation}
  {os os' : List Operand} {tail : List UInt8}

def Starts (m : Memory) (version : UInt8) (a b : Nat) (op : Operation) (os : List Operand) : Prop :=
  ∃ opcode d ks a₁ a₂, d.toOperation = op ∧ descriptor m version a = .ok ((opcode, d), a₁) ∧
    kinds m opcode d a₁ = .ok (ks, a₂) ∧ operands m ks a₂ = .ok (os, b)

theorem starts_longForm (version : UInt8) (hk : k < 32) (h : m.Shows a (longForm k first second x y)) :
    Starts m version a (a + 3) (.ofTwo k) [⟨byteKind first, x.toUInt16⟩, ⟨byteKind second, y.toUInt16⟩] := by
  obtain ⟨hopcode, hx, hy, -⟩ := h
  have hfirst := first.toNat_le
  have hsecond := second.toNat_le
  have hd := descriptor_of_byte version hopcode (opcode_ne_extending (by omega) (by omega))
  rw [normal_longForm hk] at hd
  have hos := operands_of_bytes (byteKind_ne_large first) (byteKind_ne_large second) hx hy
  rw [← longFormKinds_longForm hk] at hos
  exact ⟨_, _, _, _, _, rfl, hd, rfl, hos⟩

theorem starts_variableForm (version : UInt8) (hk : k < 32) (h : m.Shows a (variableForm k first second x y)) :
    Starts m version a (a + 4) (.ofTwo k) [⟨byteKind first, x.toUInt16⟩, ⟨byteKind second, y.toUInt16⟩] := by
  obtain ⟨hopcode, htypes, hx, hy, -⟩ := h
  have hd := descriptor_of_byte version hopcode (opcode_ne_extending (by omega) (by omega))
  rw [normal_variableForm hk] at hd
  have hos := operands_of_bytes (byteKind_ne_large first) (byteKind_ne_large second) hx hy
  rw [← kindsOfByte_variableForm] at hos
  refine ⟨_, _, _, _, _, rfl, hd, ?_, hos⟩
  refine (bind_of_ok _ (byte_of_ok htypes)).trans ?_
  have hone : ¬ hasTwoTypeBytes (Operation.ofTwo k).mnemonic = true := by
    rw [(ofTwo_plain k).2]
    decide
  exact congrFun (if_neg hone) (a + 2)

theorem starts_smallForm (version : UInt8) (hk : k < 16) (h : m.Shows a (smallForm k x)) :
    Starts m version a (a + 2) (.ofOne version k) [⟨.small, x.toUInt16⟩] := by
  obtain ⟨hopcode, hx, -⟩ := h
  have hd := descriptor_of_byte version hopcode (opcode_ne_extending (by omega) (by omega))
  rw [normal_shortForm hk (.inr rfl)] at hd
  have hkind : OperandKind.ofBits? ((UInt8.ofNat (0x90 + k)).toNat / 16) = some .small := by
    rw [toNat_opcode (by omega), show (0x90 + k) / 16 = 9 by omega]
    rfl
  refine ⟨_, _, [.small], _, _, rfl, hd, ?_, bind_of_ok _ (operand_of_byte (by decide) hx)⟩
  exact congrArg (fun kind => Except.ok (Option.toList kind, a + 1)) hkind

theorem starts_largeForm (version : UInt8) (hk : k < 16) (h : m.Shows a (largeForm k x)) :
    Starts m version a (a + 3) (.ofOne version k) [⟨.large, x.toUInt16⟩] := by
  obtain ⟨hopcode, hhigh, hlow, -⟩ := h
  have hd := descriptor_of_byte version hopcode (opcode_ne_extending (by omega) (by omega))
  rw [normal_shortForm hk (.inl rfl)] at hd
  have hkind : OperandKind.ofBits? ((UInt8.ofNat (0x80 + k)).toNat / 16) = some .large := by
    rw [toNat_opcode (by omega), show (0x80 + k) / 16 = 8 by omega]
    rfl
  have hword := Memory.word_of_bytes hhigh hlow
  rw [ofBytes16_zero] at hword
  refine ⟨_, _, [.large], _, _, rfl, hd, ?_, bind_of_ok _ (operand_of_word hword)⟩
  exact congrArg (fun kind => Except.ok (Option.toList kind, a + 1)) hkind

theorem instructions_of_starts (htail : op.IsTail tail) (htext : hasText op.mnemonic = false)
    (h : Starts m version a b op os) (h' : Starts m' version a' b op os')
    (hm : m.Shows b tail) (hm' : m'.Shows b tail) (hos : List.Forall₂ Operand.Agrees os os') :
    ∃ i j, m.instruction version a = .ok i ∧ m'.instruction version a' = .ok j ∧
      i.Agrees j ∧ i.operands = os ∧ j.operands = os' := by
  obtain ⟨store, br, hread⟩ := tail_of_shows htail
  obtain ⟨opcode, d, ks, a₁, a₂, rfl, hd, hks, hops⟩ := h
  obtain ⟨opcode', d', ks', a₁', a₂', hop, hd', hks', hops'⟩ := h'
  obtain ⟨c, hstore, hbranch⟩ := hread m b hm
  obtain ⟨c', hstore', hbranch'⟩ := hread m' b hm'
  have hnone {m : Memory} {c : Nat} : optional (hasText d.mnemonic) (string m) c = .ok (none, c) := by
    rw [optional, htext]
    rfl
  have hi := instruction_of_parts hd hks hops hstore hbranch hnone
  rw [← hop] at hstore' hbranch' hnone
  have hj := instruction_of_parts hd' hks' hops' hstore' hbranch' hnone
  refine ⟨_, _, hi, hj, ⟨?_, ?_, hos, rfl, rfl, rfl, rfl⟩, rfl, rfl⟩
  · exact congrArg Operation.mnemonic hop.symm
  · exact congrArg Operation.minVersion hop.symm

end Fetch

end ZMachine
