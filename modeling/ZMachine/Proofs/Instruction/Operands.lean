import ZMachine.Instruction.Decode

namespace ZMachine

theorem length_kindsOfByte (types : Nat) : (kindsOfByte types).length ≤ 4 := by
  unfold kindsOfByte
  dsimp only
  refine Nat.le_trans (List.length_filterMap_le ..) ?_
  exact (List.takeWhile_sublist _).length_le

namespace Fetch

variable {α β : Type}

def Gives (P : α → Prop) (x : Fetch α) : Prop := ∀ a r, x a = .ok r → P r.1

namespace Gives

variable {P : α → Prop} {Q : β → Prop}

theorem anything (x : Fetch α) : Gives (fun _ => True) x := fun _ _ _ => trivial

theorem pure {a : α} (h : P a) : Gives P (Pure.pure a : Fetch α) := by
  rintro _ _ ⟨⟩
  exact h

theorem bind {x : Fetch α} {f : α → Fetch β} (hx : Gives P x) (hf : ∀ a, P a → Gives Q (f a)) :
    Gives Q (x >>= f) := by
  intro a r h
  change Except.bind (x a) (fun p => f p.1 p.2) = .ok r at h
  cases hr : x a with
  | error e =>
    rw [hr] at h
    cases h
  | ok p =>
    rw [hr] at h
    exact hf p.1 (hx a p hr) p.2 r h

theorem bind_anything {x : Fetch α} {f : α → Fetch β} (hf : ∀ a, Gives Q (f a)) :
    Gives Q (x >>= f) :=
  bind (anything x) fun a _ => hf a

theorem ite {c : Prop} [Decidable c] {x y : Fetch α} (hx : Gives P x) (hy : Gives P y) :
    Gives P (if c then x else y) := by
  split
  · exact hx
  · exact hy

theorem ite_bind {c : Prop} [Decidable c] {x y : Fetch α} {f : α → Fetch β}
    (hf : ∀ a, Gives Q (f a)) : Gives Q (if c then x >>= f else y >>= f) :=
  ite (bind_anything hf) (bind_anything hf)

end Gives

variable {m : Memory}

theorem operands_length (kinds : List OperandKind) :
    Gives (fun os => os.length = kinds.length) (operands m kinds) := by
  induction kinds with
  | nil => exact .pure rfl
  | cons kind rest ih =>
    refine .bind_anything fun o => .bind ih fun os hos => .pure ?_
    rw [List.length_cons, List.length_cons, hos]

theorem kinds_length (opcode : UInt8) (d : Descriptor) :
    Gives (fun ks => ks.length ≤ 8) (kinds m opcode d) := by
  have bytes : Gives (fun ks => ks.length ≤ 8) (do
      let first := kindsOfByte (← byte m).toNat
      if hasTwoTypeBytes d.mnemonic then
        let second := kindsOfByte (← byte m).toNat
        return if first.length = 4 then first ++ second else first
      return first) := by
    refine .bind_anything fun types => ?_
    have first := length_kindsOfByte types.toNat
    refine .ite (.bind_anything fun types' => .pure ?_) (.pure (by omega))
    have second := length_kindsOfByte types'.toNat
    split
    · rw [List.length_append]
      omega
    · omega
  unfold kinds
  split
  · exact .pure (Nat.zero_le 8)
  · exact .pure (Nat.le_trans Option.length_toList_le (by decide))
  · exact .pure (Nat.le_add_left 2 6)
  · exact bytes
  · exact bytes

theorem instruction_operands_length (version : UInt8) :
    Gives (fun i => i.operands.length ≤ 8) (instruction m version) := by
  refine .bind_anything fun address => .bind_anything fun (opcode, d) => ?_
  refine .bind (kinds_length opcode d) fun ks hks => .bind (operands_length ks) fun os hos => ?_
  refine .ite_bind fun store => .ite_bind fun branch => .ite_bind fun text => ?_
  refine .bind_anything fun next => .pure ?_
  rw [hos]
  exact hks

end Fetch

theorem Memory.instruction_operands_length {m : Memory} {version : UInt8} {a : Nat}
    {i : Instruction} (h : m.instruction version a = .ok i) : i.operands.length ≤ 8 := by
  unfold Memory.instruction at h
  cases hf : Fetch.instruction m version a with
  | error e =>
    rw [hf] at h
    cases h
  | ok r =>
    rw [hf] at h
    cases h
    exact Fetch.instruction_operands_length version a r hf

end ZMachine
