import ZMachine.Proofs.Action
import ZMachine.Proofs.Instruction.Operands

namespace ZMachine

namespace Fetch

variable {α β : Type} {m : Memory} {version : UInt8} {a b : Nat}

theorem ok_of_bind {x : Fetch α} {f : α → Fetch β} {r : β × Nat} (h : (x >>= f) a = .ok r) :
    ∃ v c, x a = .ok (v, c) ∧ f v c = .ok r := by
  obtain ⟨⟨v, c⟩, hx, hf⟩ := ok_of_bind_except h
  exact ⟨v, c, hx, hf⟩

def optional (present : Bool) (x : Fetch α) : Fetch (Option α) :=
  if present then some <$> x else pure none

theorem ok_of_optional {present : Bool} {x : Fetch α} {f : Option α → Fetch β} {r : β × Nat}
    (h : (if present = true then some <$> x >>= f else pure none >>= f) a = .ok r) :
    ∃ o c, optional present x a = .ok (o, c) ∧ f o c = .ok r := by
  by_cases hp : present
  · rw [if_pos hp] at h
    obtain ⟨o, c, hx, hf⟩ := ok_of_bind h
    exact ⟨o, c, by rw [optional, if_pos hp, hx], hf⟩
  · rw [if_neg hp] at h
    obtain ⟨o, c, hx, hf⟩ := ok_of_bind h
    exact ⟨o, c, by rw [optional, if_neg hp, hx], hf⟩

theorem optional_isSome {present : Bool} {x : Fetch α} {o : Option α}
    (h : optional present x a = .ok (o, b)) : o.isSome = present := by
  unfold optional at h
  split at h
  · next hp =>
    obtain ⟨⟨v, c⟩, -, hv⟩ := ok_of_bind_except h
    cases hv
    exact hp.symm
  · next hp =>
    cases h
    simpa using hp

theorem ok_of_optional_some {present : Bool} {x : Fetch α} {v : α}
    (h : optional present x a = .ok (some v, b)) : x a = .ok (v, b) := by
  unfold optional at h
  split at h
  · obtain ⟨⟨w, c⟩, hx, hv⟩ := ok_of_bind_except h
    cases hv
    exact hx
  · cases h

theorem instruction_parts {i : Instruction} (h : instruction m version a = .ok (i, b)) :
    ∃ opcode ks a₁ a₂ a₃ a₄ a₅,
      descriptor m version a = .ok ((opcode, i.descriptor), a₁) ∧
      kinds m opcode i.descriptor a₁ = .ok (ks, a₂) ∧
      operands m ks a₂ = .ok (i.operands, a₃) ∧
      optional i.descriptor.store (byte m) a₃ = .ok (i.store, a₄) ∧
      optional i.descriptor.branch (branch m) a₄ = .ok (i.branch, a₅) ∧
      optional (hasText i.descriptor.mnemonic) (string m) a₅ = .ok (i.text, b) ∧
      i.address = a ∧ i.next = b := by
  obtain ⟨_, _, ⟨⟩, h⟩ := ok_of_bind h
  obtain ⟨⟨opcode, d⟩, a₁, hd, h⟩ := ok_of_bind h
  obtain ⟨ks, a₂, hks, h⟩ := ok_of_bind h
  obtain ⟨os, a₃, hos, h⟩ := ok_of_bind h
  obtain ⟨store, a₄, hstore, h⟩ := ok_of_optional h
  obtain ⟨branch, a₅, hbranch, h⟩ := ok_of_optional h
  obtain ⟨text, _, htext, h⟩ := ok_of_optional h
  obtain ⟨_, _, ⟨⟩, h⟩ := ok_of_bind h
  cases h
  exact ⟨opcode, ks, a₁, a₂, a₃, a₄, a₅, hd, hks, hos, hstore, hbranch, htext, rfl, rfl⟩

theorem descriptor_ok {opcode : UInt8} {d : Descriptor}
    (h : descriptor m version a = .ok ((opcode, d), b)) :
    d = .normal version opcode ∨ 5 ≤ version ∧ ∃ extension, d = .extended extension := by
  obtain ⟨first, c, -, h⟩ := ok_of_bind h
  split at h
  · next extends_ =>
    obtain ⟨second, _, -, h⟩ := ok_of_bind h
    cases h
    exact .inr ⟨extends_.2, second, rfl⟩
  · cases h
    exact .inl rfl

end Fetch

namespace Descriptor

theorem normal_cases (version raw : UInt8) :
    (∃ n form, form ≠ .ext ∧ normal version raw = ⟨.ofTwo n, form, raw⟩) ∨
      (∃ n, normal version raw = ⟨.ofOne version n, .op1, raw⟩) ∨
      (∃ n, normal version raw = ⟨.ofNone version n, .op0, raw⟩) ∨
      ∃ n, normal version raw = ⟨.ofAny version n, .var, raw⟩ := by
  unfold normal
  dsimp only
  split
  · exact .inl ⟨_, _, by decide, rfl⟩
  · split
    · exact .inr (.inl ⟨_, rfl⟩)
    · split
      · exact .inr (.inr (.inl ⟨_, rfl⟩))
      · split
        · exact .inl ⟨_, _, by decide, rfl⟩
        · exact .inr (.inr (.inr ⟨_, rfl⟩))

theorem normal_form_ne_ext (version raw : UInt8) : (normal version raw).form ≠ .ext := by
  obtain ⟨n, form, hf, hd⟩ | ⟨n, hd⟩ | ⟨n, hd⟩ | ⟨n, hd⟩ := normal_cases version raw
  · rw [hd]
    exact hf
  all_goals
    rw [hd]
    nofun

theorem kind_of_op1 {version raw : UInt8} (h : (normal version raw).form = .op1) :
    ∃ kind, OperandKind.ofBits? (raw.toNat / 16) = some kind := by
  have range : 0x80 ≤ raw.toNat ∧ raw.toNat < 0xB0 := by
    unfold normal at h
    dsimp only at h
    split at h
    · cases h
    · split at h
      · omega
      · split at h
        · cases h
        · split at h <;> cases h
  have bits : raw.toNat / 16 = 8 ∨ raw.toNat / 16 = 9 ∨ raw.toNat / 16 = 10 := by omega
  rcases bits with hb | hb | hb <;> rw [hb] <;> exact ⟨_, rfl⟩

structure Controlled (d : Descriptor) : Prop where
  jump : d.mnemonic = .jump → d.form = .op1
  restart : d.mnemonic = .restart → d.form = .op0 ∧ d.minVersion = 1
  undo : d.mnemonic = .saveUndo ∨ d.mnemonic = .restoreUndo → d.form = .ext ∧ d.minVersion = 5

theorem controlled_of_other {op : Operation} {form : Form} {raw : UInt8}
    (h : op.mnemonic ∉ [.jump, .restart, .saveUndo, .restoreUndo]) : Controlled ⟨op, form, raw⟩ := by
  simp only [List.mem_cons, not_or] at h
  obtain ⟨jump, restart, saveUndo, restoreUndo, -⟩ := h
  refine ⟨fun hm => absurd hm jump, fun hm => absurd hm restart, fun hm => ?_⟩
  exact absurd hm (not_or.mpr ⟨saveUndo, restoreUndo⟩)

theorem normal_controlled (version raw : UInt8) : (normal version raw).Controlled := by
  obtain ⟨n, form, -, hd⟩ | ⟨n, hd⟩ | ⟨n, hd⟩ | ⟨n, hd⟩ := normal_cases version raw
  · rw [hd]
    unfold Operation.ofTwo
    split <;> exact controlled_of_other (by decide)
  · rw [hd]
    unfold Operation.ofOne
    split <;> first
      | exact controlled_of_other (by decide)
      | split <;> exact controlled_of_other (by decide)
      | exact ⟨fun _ => rfl, nofun, nofun⟩
  · rw [hd]
    unfold Operation.ofNone
    split <;> first
      | exact controlled_of_other (by decide)
      | split <;> exact controlled_of_other (by decide)
      | exact ⟨nofun, fun _ => ⟨rfl, rfl⟩, nofun⟩
  · rw [hd]
    unfold Operation.ofAny
    split <;> first
      | exact controlled_of_other (by decide)
      | split <;> exact controlled_of_other (by decide)

theorem extended_controlled (raw : UInt8) : (extended raw).Controlled := by
  unfold extended Operation.ofExtended
  split <;> first
    | exact controlled_of_other (by decide)
    | exact ⟨nofun, nofun, fun _ => ⟨rfl, rfl⟩⟩

end Descriptor

/-- What the table says of an instruction of a version. -/
structure Instruction.Shaped (version : UInt8) (i : Instruction) : Prop where
  controlled : i.descriptor.Controlled
  ext : i.descriptor.form = .ext → 5 ≤ version
  none : i.descriptor.form = .op0 → i.operands = []
  one : i.descriptor.form = .op1 → i.operands.length = 1
  store : i.store.isSome = i.descriptor.store
  branch : i.branch.isSome = i.descriptor.branch

theorem Memory.instruction_shaped {m : Memory} {version : UInt8} {a : Nat} {i : Instruction}
    (h : m.instruction version a = .ok i) : i.Shaped version := by
  obtain ⟨⟨_, b⟩, hi, ⟨⟩⟩ := ok_of_bind_except h
  obtain ⟨opcode, ks, a₁, a₂, a₃, a₄, a₅, hd, hks, hos, hstore, hbranch, -, -, -⟩ :=
    Fetch.instruction_parts hi
  have hlength := Fetch.operands_length ks a₂ _ hos
  have hentry := Fetch.descriptor_ok hd
  refine ⟨?_, ?_, ?_, ?_, Fetch.optional_isSome hstore, Fetch.optional_isSome hbranch⟩
  · obtain hn | ⟨-, extension, he⟩ := hentry
    · rw [hn]
      exact Descriptor.normal_controlled ..
    · rw [he]
      exact Descriptor.extended_controlled _
  · intro form
    obtain hn | ⟨late, -⟩ := hentry
    · rw [hn] at form
      exact absurd form (Descriptor.normal_form_ne_ext version opcode)
    · exact late
  · intro form
    unfold Fetch.kinds at hks
    rw [form] at hks
    cases hks
    exact List.eq_nil_of_length_eq_zero hlength
  · intro form
    obtain hn | ⟨-, extension, he⟩ := hentry
    · obtain ⟨kind, hkind⟩ := Descriptor.kind_of_op1 (hn ▸ form)
      unfold Fetch.kinds at hks
      rw [form, hkind] at hks
      cases hks
      exact hlength
    · rw [he] at form
      cases form

end ZMachine
