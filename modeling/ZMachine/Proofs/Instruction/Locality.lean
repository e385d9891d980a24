import ZMachine.Proofs.Instruction.Encoding
import ZMachine.Proofs.Text.Extent

namespace ZMachine

/-- `n` has the bytes of `m` from `a` up to `b`. -/
def Memory.Alike (m n : Memory) (a b : Nat) : Prop := ∀ c, a ≤ c → c < b → n.byte c = m.byte c

theorem Memory.Alike.mono {m n : Memory} {a b a' b' : Nat} (h : m.Alike n a b) (ha : a ≤ a') (hb : b' ≤ b) :
    m.Alike n a' b' := by
  intro c hac hcb
  exact h c (by omega) (by omega)

theorem Memory.Alike.word {m n : Memory} {a b : Nat} {w : UInt16} (h : m.Alike n a b) (hb : a + 2 ≤ b)
    (hw : m.word a = .ok w) : n.word a = .ok w := by
  have hin := Memory.word_inside hw
  obtain ⟨high, hhigh⟩ := Memory.byte_of_lt (show a < m.bytes.size by omega)
  obtain ⟨low, hlow⟩ := Memory.byte_of_lt hin
  rw [Memory.word_of_bytes hhigh hlow] at hw
  rw [← h a (by omega) (by omega)] at hhigh
  rw [← h (a + 1) (by omega) (by omega)] at hlow
  rw [Memory.word_of_bytes hhigh hlow, hw]

theorem Memory.Alike.stores {m n : Memory} {a b : Nat} {ws : List UInt16} (h : m.Alike n a b)
    (hb : a + 2 * ws.length ≤ b) (hws : m.Stores a ws) : n.Stores a ws := by
  induction ws generalizing a with
  | nil => trivial
  | cons w ws ih =>
    rw [List.length_cons] at hb
    exact ⟨h.word (by omega) hws.1, ih (h.mono (by omega) (Nat.le_refl b)) (by omega) hws.2⟩

namespace Fetch

variable {α β : Type}

/-- A success moves on over bytes of the image, and they alone decide what is read. -/
def Local (x : Memory → Fetch α) : Prop :=
  ∀ m a v b, x m a = .ok (v, b) →
    a ≤ b ∧ (a < b → b ≤ m.size) ∧ ∀ n, m.Alike n a b → x n a = .ok (v, b)

theorem Local.bind {x : Memory → Fetch α} {f : α → Memory → Fetch β} (hx : Local x) (hf : ∀ v, Local (f v)) :
    Local fun m => x m >>= fun v => f v m := by
  intro m a w b h
  obtain ⟨v, c, hv, h⟩ := ok_of_bind h
  obtain ⟨hac, hc, hxn⟩ := hx m a v c hv
  obtain ⟨hcb, hb, hfn⟩ := hf v m c w b h
  refine ⟨by omega, fun hab => ?_, fun n hn => ?_⟩
  · by_cases hlt : c < b
    · exact hb hlt
    · exact Nat.le_trans (by omega) (hc (by omega))
  · have hxa := hxn n (hn.mono (Nat.le_refl a) hcb)
    have hfc := hfn n (hn.mono hac (Nat.le_refl b))
    exact (bind_of_ok _ hxa).trans hfc

structure Reads (x : Memory → Fetch α) : Prop where
  extent : Local x
  failure : ∀ m a e, a < 2 ^ 32 → x m a = .error e → m.Leaves a e

namespace Reads

theorem pure (v : α) : Reads fun _ => Pure.pure v := by
  constructor
  · rintro m a _ _ ⟨⟩
    exact ⟨Nat.le_refl a, fun h => absurd h (Nat.lt_irrefl a), fun _ _ => rfl⟩
  · rintro m a e - ⟨⟩

theorem position : Reads fun _ => get := by
  constructor
  · rintro m a _ _ ⟨⟩
    exact ⟨Nat.le_refl a, fun h => absurd h (Nat.lt_irrefl a), fun _ _ => rfl⟩
  · rintro m a e - ⟨⟩

theorem bind {x : Memory → Fetch α} {f : α → Memory → Fetch β} (hx : Reads x) (hf : ∀ v, Reads (f v)) :
    Reads fun m => x m >>= fun v => f v m := by
  refine ⟨hx.extent.bind fun v => (hf v).extent, ?_⟩
  intro m a e ha h
  obtain h | ⟨⟨v, c⟩, hv, h⟩ := error_of_bind_except h
  · exact hx.failure m a e ha h
  · obtain ⟨hac, hc, -⟩ := hx.extent m a v c hv
    have hsize : m.size ≤ 512 * 1024 := m.size_le
    have hbound : c < 2 ^ 32 := by
      by_cases hlt : a < c
      · have hin := hc hlt
        omega
      · omega
    exact ((hf v).failure m c e hbound h).mono hac

theorem map {x : Memory → Fetch α} (f : α → β) (hx : Reads x) : Reads fun m => f <$> x m := by
  simp only [map_eq_pure_bind]
  exact hx.bind fun v => .pure (f v)

theorem ite {c : Prop} [Decidable c] {x y : Memory → Fetch α} (hx : Reads x) (hy : Reads y) :
    Reads fun m => if c then x m else y m := by
  split
  · exact hx
  · exact hy

theorem byte : Reads Fetch.byte := by
  constructor
  · intro m a v b h
    obtain ⟨v, hv, h⟩ := ok_of_bind_except h
    cases h
    have hin := Memory.byte_inside hv
    refine ⟨by omega, fun _ => hin, fun n hn => byte_of_ok ?_⟩
    rw [hn a (Nat.le_refl a) (by omega), hv]
  · intro m a e ha h
    obtain h | ⟨v, -, h⟩ := error_of_bind_except h
    · exact Memory.byte_error ha h
    · cases h

theorem word : Reads Fetch.word := by
  constructor
  · intro m a v b h
    obtain ⟨v, hv, h⟩ := ok_of_bind_except h
    cases h
    have hin := Memory.word_inside hv
    refine ⟨by omega, fun _ => hin, fun n hn => ?_⟩
    rw [Fetch.word, hn.word (Nat.le_refl (a + 2)) hv]
    rfl
  · intro m a e ha h
    obtain h | ⟨v, -, h⟩ := error_of_bind_except h
    · exact Memory.word_error ha h
    · cases h

theorem operand (kind : OperandKind) : Reads fun m => Fetch.operand m kind := by
  cases kind with
  | large => exact word.bind fun _ => .pure _
  | small => exact byte.bind fun _ => .pure _
  | «variable» => exact byte.bind fun _ => .pure _

theorem operands (kinds : List OperandKind) : Reads fun m => Fetch.operands m kinds := by
  induction kinds with
  | nil => exact .pure []
  | cons kind rest ih => exact (operand kind).bind fun _ => ih.bind fun _ => .pure _

theorem branch : Reads Fetch.branch :=
  byte.bind fun _ => .ite (.pure _) (byte.bind fun _ => .pure _)

theorem descriptor (version : UInt8) : Reads fun m => Fetch.descriptor m version :=
  byte.bind fun _ => .ite (byte.bind fun _ => .pure _) (.pure _)

theorem kinds (opcode : UInt8) (d : Descriptor) : Reads fun m => Fetch.kinds m opcode d := by
  have hbytes : Reads fun m => (do
      let first := kindsOfByte (← Fetch.byte m).toNat
      if hasTwoTypeBytes d.mnemonic then
        let second := kindsOfByte (← Fetch.byte m).toNat
        return if first.length = 4 then first ++ second else first
      return first) :=
    byte.bind fun _ => .ite (byte.bind fun _ => .pure _) (.pure _)
  unfold Fetch.kinds
  cases d.form with
  | op0 => exact .pure _
  | op1 => exact .pure _
  | op2 => exact .pure _
  | var => exact hbytes
  | ext => exact hbytes

theorem optional {x : Memory → Fetch α} (present : Bool) (hx : Reads x) :
    Reads fun m => Fetch.optional present (x m) :=
  .ite (hx.map some) (.pure none)

end Reads

theorem string_local : Local string := by
  intro m a v b h
  obtain ⟨n, hn, h⟩ := ok_of_bind_except h
  obtain ⟨ws, hws, rfl⟩ := ok_of_map hn
  cases h
  obtain ⟨hstores, hterm, hlen⟩ := Memory.stringWords_iff.1 hws
  refine ⟨by omega, fun _ => hstores.le_size hterm.ne_nil, fun m' hm' => ?_⟩
  have hws' : m'.stringWords a = .ok ws :=
    Memory.stringWords_iff.2 ⟨hm'.stores (Nat.le_refl _) hstores, hterm, hlen⟩
  rw [string, Memory.wordCount, hws']
  rfl

theorem string_error {m : Memory} {a : Nat} {e : Fault} (ha : a < 2 ^ 32) (h : string m a = .error e) :
    m.Unended a 4096 ∧ e = .malformedText (.unterminated a) ∨ m.Leaves a e := by
  obtain h | ⟨n, -, h⟩ := error_of_bind_except h
  · rw [Memory.wordCount, map_eq_pure_bind] at h
    obtain h | ⟨ws, -, h⟩ := error_of_bind_except h
    · exact Memory.stringWords_error ha h
    · cases h
  · cases h

section Instruction

variable {m : Memory} {version opcode : UInt8} {d : Descriptor} {a b : Nat} {e : Fault}

def body (m : Memory) (address : Nat) (opcode : UInt8) (d : Descriptor) : Fetch Instruction := do
  let os ← operands m (← kinds m opcode d)
  let store ← optional d.store (byte m)
  let branch ← optional d.branch (branch m)
  let text ← optional (hasText d.mnemonic) (string m)
  return ⟨address, d, os, store, branch, text, ← get⟩

theorem instruction_eq (m : Memory) (version : UInt8) :
    instruction m version = get >>= fun address => descriptor m version >>= fun p => body m address p.1 p.2 := by
  have opened {α β : Type} (present : Bool) (x : Fetch α) (f : Option α → Fetch β) :
      optional present x >>= f = if present = true then some <$> x >>= f else f none := by
    cases present <;> rfl
  simp only [instruction, body, opened, pure_bind]

theorem body_local (address : Nat) (opcode : UInt8) (d : Descriptor) : Local fun m => body m address opcode d := by
  have htext : Local fun m => optional (hasText d.mnemonic) (string m) := by
    cases hasText d.mnemonic with
    | false => exact (Reads.pure none).extent
    | true =>
      simp only [optional, ↓reduceIte, map_eq_pure_bind]
      exact string_local.bind fun _ => (Reads.pure _).extent
  exact (Reads.kinds opcode d).extent.bind fun ks => (Reads.operands ks).extent.bind fun _ =>
    (Reads.byte.optional _).extent.bind fun _ => (Reads.branch.optional _).extent.bind fun _ =>
      htext.bind fun _ => (Reads.position.bind fun _ => .pure _).extent

theorem body_reads (address : Nat) (opcode : UInt8) (htext : hasText d.mnemonic = false) :
    Reads fun m => body m address opcode d := by
  simp only [body, htext]
  exact (Reads.kinds opcode d).bind fun ks => (Reads.operands ks).bind fun _ =>
    (Reads.byte.optional _).bind fun _ => (Reads.branch.optional _).bind fun _ =>
      (Reads.pure none).bind fun _ => Reads.position.bind fun _ => .pure _

theorem descriptor_lt (h : descriptor m version a = .ok ((opcode, d), b)) : a < b := by
  obtain ⟨first, c, hfirst, h⟩ := ok_of_bind h
  obtain ⟨_, -, ⟨⟩⟩ := ok_of_bind_except hfirst
  have hrest : Reads fun m => (if first = 0xBE ∧ 5 ≤ version then do
      return (first, Descriptor.extended (← byte m)) else return (first, .normal version first)) :=
    .ite (Reads.byte.bind fun _ => .pure _) (.pure _)
  exact (hrest.extent m _ _ _ h).1

theorem instruction_local (version : UInt8) : Local fun m => instruction m version := by
  simp only [instruction_eq]
  exact Reads.position.extent.bind fun address => (Reads.descriptor version).extent.bind fun _ =>
    body_local address _ _

theorem instruction_lt {i : Instruction} (h : instruction m version a = .ok (i, b)) : a < b := by
  rw [instruction_eq] at h
  obtain ⟨_, _, ⟨⟩, h⟩ := ok_of_bind h
  obtain ⟨⟨opcode, d⟩, c, hd, h⟩ := ok_of_bind h
  have hac := descriptor_lt hd
  have hcb := (body_local a opcode d m c i b h).1
  omega

end Instruction

end Fetch

namespace Operation

theorem ofNone_text {version : UInt8} {k : Nat} (h : hasText (ofNone version k).mnemonic = true) :
    (ofNone version k).store = false ∧ (ofNone version k).branch = false := by
  unfold ofNone at h ⊢
  split at h <;> first
    | exact ⟨rfl, rfl⟩
    | split at h <;> cases h
    | cases h

theorem ofAny_plain (version : UInt8) (k : Nat) : hasText (ofAny version k).mnemonic = false := by
  unfold ofAny
  split <;> first
    | rfl
    | split <;> rfl

theorem ofExtended_plain (k : Nat) : hasText (ofExtended k).mnemonic = false := by
  unfold ofExtended
  split <;> rfl

end Operation

theorem Descriptor.normal_text {version raw : UInt8} (h : hasText (normal version raw).mnemonic = true) :
    (normal version raw).form = .op0 ∧ (normal version raw).store = false ∧ (normal version raw).branch = false := by
  obtain ⟨n, form, -, hd⟩ | ⟨n, hd⟩ | ⟨n, hd⟩ | ⟨n, hd⟩ := normal_cases version raw
  · rw [hd, (ofTwo_plain n).1] at h
    cases h
  · rw [hd, ofOne_plain] at h
    cases h
  · rw [hd] at h ⊢
    exact ⟨rfl, Operation.ofNone_text h⟩
  · rw [hd, Operation.ofAny_plain] at h
    cases h

namespace Fetch

variable {m : Memory} {version opcode : UInt8} {d : Descriptor} {a b : Nat} {e : Fault}

theorem descriptor_text (h : descriptor m version a = .ok ((opcode, d), b)) (htext : hasText d.mnemonic = true) :
    m.byte a = .ok opcode ∧ d = .normal version opcode ∧ b = a + 1 := by
  obtain ⟨first, c, hfirst, h⟩ := ok_of_bind h
  obtain ⟨_, hbyte, ⟨⟩⟩ := ok_of_bind_except hfirst
  split at h
  · obtain ⟨second, _, -, ⟨⟩⟩ := ok_of_bind h
    rw [Descriptor.extended, Operation.ofExtended_plain] at htext
    cases htext
  · cases h
    exact ⟨hbyte, rfl, rfl⟩

theorem body_text {address : Nat} (htext : hasText (Descriptor.normal version opcode).mnemonic = true) :
    body m address opcode (.normal version opcode) = do
      let text ← string m
      return ⟨address, .normal version opcode, [], none, none, some text, ← get⟩ := by
  obtain ⟨hform, hstore, hbranch⟩ := Descriptor.normal_text htext
  simp only [body, kinds, hform, hstore, hbranch, htext, optional, operands, map_eq_pure_bind, bind_assoc,
    pure_bind, ↓reduceIte, Bool.false_eq_true]

theorem instruction_error (ha : a < 2 ^ 32) (h : instruction m version a = .error e) :
    m.Leaves a e ∨ ∃ opcode, m.byte a = .ok opcode ∧ hasText (Descriptor.normal version opcode).mnemonic = true ∧
      m.Unended (a + 1) 4096 ∧ e = .malformedText (.unterminated (a + 1)) := by
  rw [instruction_eq] at h
  obtain h | ⟨⟨⟨opcode, d⟩, c⟩, hd, h⟩ := error_of_bind_except (show (descriptor m version a >>= _) = _ from h)
  · exact .inl ((Reads.descriptor version).failure m a e ha h)
  · obtain ⟨hac, hc, -⟩ := (Reads.descriptor version).extent m a _ c hd
    have hsize : m.size ≤ 512 * 1024 := m.size_le
    have hin := hc (descriptor_lt hd)
    cases htext : hasText d.mnemonic with
    | false => exact .inl (((body_reads a opcode htext).failure m c e (by omega) h).mono hac)
    | true =>
      obtain ⟨hbyte, rfl, rfl⟩ := descriptor_text hd htext
      dsimp only at h
      rw [body_text htext] at h
      obtain h | ⟨⟨text, c'⟩, -, h⟩ := error_of_bind_except h
      · obtain ⟨hun, he⟩ | hleaves := string_error (by omega) h
        · exact .inr ⟨opcode, hbyte, htext, hun, he⟩
        · exact .inl (hleaves.mono hac)
      · cases h

theorem kinds_length_four (opcode : UInt8) (hone : hasTwoTypeBytes d.mnemonic = false) :
    Gives (fun ks => ks.length ≤ 4) (kinds m opcode d) := by
  unfold kinds
  simp only [hone, Bool.false_eq_true, ↓reduceIte]
  split
  · exact .pure (Nat.zero_le 4)
  · exact .pure (Nat.le_trans Option.length_toList_le (by decide))
  · exact .pure (Nat.le_add_left 2 2)
  · exact .bind_anything fun types => .pure (length_kindsOfByte types.toNat)
  · exact .bind_anything fun types => .pure (length_kindsOfByte types.toNat)

end Fetch

theorem Memory.fetch_of_instruction {m : Memory} {version : UInt8} {a : Nat} {i : Instruction}
    (h : m.instruction version a = .ok i) : Fetch.instruction m version a = .ok (i, i.next) ∧ i.address = a := by
  obtain ⟨⟨j, b⟩, hj, hij⟩ := ok_of_map h
  obtain rfl : j = i := hij
  obtain ⟨_, _, _, _, _, _, _, -, -, -, -, -, -, haddress, hnext⟩ := Fetch.instruction_parts hj
  rw [hnext]
  exact ⟨hj, haddress⟩

/-- An instruction takes at least one byte, all its bytes are in the image, and they alone decide what
it is. Decoding fails where the image ends, or in a string that is not ended by any of 4096 words. -/
theorem Memory.instruction_is_local (m : Memory) (version : UInt8) (a : UInt32) :
    (∀ i, m.instruction version a.toNat = .ok i →
      1 ≤ i.size ∧ i.next = a.toNat + i.size ∧ a.toNat + i.size ≤ m.size ∧ i.operands.length ≤ 8 ∧
        (i.mnemonic ≠ .callVs2 → i.mnemonic ≠ .callVn2 → i.operands.length ≤ 4) ∧
        ∀ n : Memory, (∀ b, a.toNat ≤ b → b < a.toNat + i.size → n.byte b = m.byte b) →
          n.instruction version a.toNat = .ok i) ∧
    ∀ e, m.instruction version a.toNat = .error e →
      (∃ b width, a.toNat ≤ b ∧ m.size < b + width ∧ e = .memory b width m.size) ∨
        ∃ opcode, m.byte a.toNat = .ok opcode ∧
          ((Descriptor.normal version opcode).mnemonic = .print ∨
            (Descriptor.normal version opcode).mnemonic = .printRet) ∧
          (∀ k < 4096, ∃ w, m.word (a.toNat + 1 + 2 * k) = .ok w ∧ endsText w = false) ∧
          e = .malformedText (.unterminated (a.toNat + 1)) := by
  constructor
  · intro i h
    obtain ⟨hi, haddress⟩ := fetch_of_instruction h
    obtain ⟨-, hb, hlocal⟩ := Fetch.instruction_local version m _ i _ hi
    have hlt := Fetch.instruction_lt hi
    have hsize : a.toNat + i.size = i.next := by
      rw [Instruction.size, haddress]
      omega
    obtain ⟨opcode, ks, a₁, a₂, _, _, _, -, hks, hos, -⟩ := Fetch.instruction_parts hi
    refine ⟨by omega, hsize.symm, hsize ▸ hb hlt, instruction_operands_length h, ?_, ?_⟩
    · intro hvs hvn
      have hone : hasTwoTypeBytes i.descriptor.mnemonic = false := by simpa [hasTwoTypeBytes] using ⟨hvs, hvn⟩
      rw [Fetch.operands_length ks a₂ _ hos]
      exact Fetch.kinds_length_four opcode hone a₁ _ hks
    · intro n hn
      have hn' : Fetch.instruction n version a.toNat = .ok (i, i.next) := hlocal n (hsize ▸ hn)
      rw [Memory.instruction, hn']
      rfl
  · intro e h
    rw [Memory.instruction, map_eq_pure_bind] at h
    obtain h | ⟨i, -, h⟩ := error_of_bind_except h
    · obtain hleaves | ⟨opcode, hbyte, htext, hun, he⟩ := Fetch.instruction_error a.toNat_lt h
      · exact .inl hleaves
      · exact .inr ⟨opcode, hbyte, by simpa [hasText] using htext, hun, he⟩
    · cases h

def cutCode : Memory :=
  -- A call with seven arguments, and a `print` whose string is cut off by the end of the image.
  ⟨Array.replicate 64 0 ++ #[0xEC, 0x55, 0x55, 9, 1, 2, 3, 4, 5, 6, 7, 16, 0xB2, 0, 0], by simp, by simp⟩

theorem Memory.instruction_is_local_cut :
    (∃ i, cutCode.instruction 5 64 = .ok i ∧ i.operands.length = 8 ∧ 64 + i.size = 76 ∧
      ∀ n : Memory, (∀ b, 64 ≤ b → b < 76 → n.byte b = cutCode.byte b) → n.instruction 5 64 = .ok i) ∧
    ∃ b width, 76 ≤ b ∧ 79 < b + width ∧ cutCode.instruction 5 76 = .error (.memory b width 79) := by
  constructor
  · obtain ⟨i, hi, hlen, hsize⟩ : ∃ i, (cutCode.instruction 5 64).toOption = some i ∧ i.operands.length = 8 ∧
        64 + i.size = 76 := ⟨_, rfl, rfl, rfl⟩
    have hi := ok_of_toOption hi
    obtain ⟨-, -, -, -, -, hlocal⟩ := (cutCode.instruction_is_local 5 64).1 i hi
    refine ⟨i, hi, hlen, hsize, fun n hn => hlocal n ?_⟩
    rw [show (64 : UInt32).toNat = 64 from rfl, hsize]
    exact hn
  · have he : cutCode.instruction 5 76 = .error (.memory 79 2 79) := rfl
    obtain ⟨b, width, hab, hb, hfault⟩ | ⟨opcode, -, -, -, hfault⟩ := (cutCode.instruction_is_local 5 76).2 _ he
    · exact ⟨b, width, hab, hb, he.trans (congrArg Except.error hfault)⟩
    · cases hfault

end ZMachine
