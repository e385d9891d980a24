import ZMachine.Proofs.Machine.Capture

namespace ZMachine

inductive StackRequest where
  | push (v : UInt16)
  | pull
  | drop (n : UInt16)

inductive StackAnswer where
  | room (free : Bool)
  | value (v : UInt16)
  | done

/-- A stack with room for a number of values, as a list; there is no answer to taking off more values than it
holds. -/
def StackRequest.answer? (capacity : Nat) :
    StackRequest → List UInt16 → Option (StackAnswer × List UInt16)
  | .push v, held =>
    if held.length < capacity then some (.room true, v :: held) else some (.room false, held)
  | .pull, [] => none
  | .pull, v :: held => some (.value v, held)
  | .drop n, held => if n.toNat ≤ held.length then some (.done, held.drop n.toNat) else none

inductive StackRequest.Asked (i : Instruction) (stack : UInt16) : List UInt16 → StackRequest → Prop
  | push {v : UInt16} {rest : List UInt16} (h : i.mnemonic = .pushStack) :
    Asked i stack (v :: stack :: rest) (.push v)
  | pull {rest : List UInt16} (h : i.mnemonic = .pull) (stores : i.store.isSome) :
    Asked i stack (stack :: rest) .pull
  | drop {n : UInt16} {rest : List UInt16} (h : i.mnemonic = .popStack) :
    Asked i stack (n :: stack :: rest) (.drop n)

namespace Machine

open Memory (ChangesAt ChangesWithin)

variable {η : Type}

def serve (stack : Nat) : StackRequest → Action Memory StackAnswer
  | .push v => do return .room (← pushUserStack stack v)
  | .pull => do return .value (← pullUserStack stack)
  | .drop n => do
    dropUserStack stack n
    return .done

def StackByte (stack capacity : UInt16) (b : Nat) : Prop :=
  stack.toNat ≤ b ∧ b < stack.toNat + 2 * (capacity.toNat + 1)

/-- A user stack holds a list. The slots below those that are taken may hold anything. -/
structure HoldsStack (stack capacity : UInt16) (m : Memory) (held : List UInt16) : Prop where
  inside : stack.toNat + 2 * (capacity.toNat + 1) ≤ m.bytes.size
  free : ∃ w, m.word stack.toNat = .ok w ∧ w.toNat + held.length = capacity.toNat
  slot : ∀ k v, held[k]? = some v →
    m.word (stack.toNat + 2 * (capacity.toNat - held.length + 1 + k)) = .ok v

namespace HoldsStack

variable {stack capacity v n : UInt16} {m m' : Memory} {held : List UInt16}

theorem of_within (h : HoldsStack stack capacity m held)
    (hc : ChangesWithin (fun b => ¬ StackByte stack capacity b) m m') : HoldsStack stack capacity m' held := by
  have hsize : m'.bytes.size = m.bytes.size := hc.size
  obtain ⟨w, hw, hfree⟩ := h.free
  refine ⟨hsize ▸ h.inside, ⟨w, ?_, hfree⟩, fun k v hk => ?_⟩
  · rw [← hw]
    apply hc.word
    intro b hlow hhigh
    exact fun other => other ⟨hlow, by omega⟩
  · have hlt : k < held.length := (List.getElem?_eq_some_iff.1 hk).1
    rw [← h.slot k v hk]
    apply hc.word
    intro b hlow hhigh
    exact fun other => other ⟨by omega, by omega⟩

theorem push_ok (h : HoldsStack stack capacity m held) (room : held.length < capacity.toNat) :
    ∃ m', pushUserStack stack.toNat v m = .ok true m' ∧ HoldsStack stack capacity m' (v :: held) ∧
      ChangesWithin (StackByte stack capacity) m m' := by
  obtain ⟨w, hw, hfree⟩ := h.free
  have hinside := h.inside
  have hne : w ≠ 0 := by
    rintro rfl
    rw [UInt16.toNat_zero] at hfree
    omega
  have hpred : (w - 1).toNat = w.toNat - 1 := by
    apply UInt16.toNat_sub_of_le
    rw [UInt16.le_iff_toNat_le, UInt16.toNat_one]
    omega
  obtain ⟨m₁, hset₁, hc₁, hw₁⟩ := Memory.setWord_ok (m := m) (a := stack.toNat + w.toNat * 2) v (by omega)
  have hsize₁ : m₁.bytes.size = m.bytes.size := hc₁.size
  obtain ⟨m₂, hset₂, hc₂, hw₂⟩ := Memory.setWord_ok (m := m₁) (a := stack.toNat) (w - 1) (by omega)
  have hsize₂ : m₂.bytes.size = m₁.bytes.size := hc₂.size
  refine ⟨m₂, ?_, ⟨by omega, ⟨w - 1, hw₂, ?_⟩, fun k x hk => ?_⟩, ?_⟩
  · rw [pushUserStack, bind_ok _ (reading_ok (f := (Memory.word · stack.toNat)) hw), if_neg hne,
      bind_ok _ hset₁, bind_ok _ hset₂]
    rfl
  · rw [List.length_cons]
    omega
  · rw [List.length_cons]
    cases k with
    | zero =>
      cases hk
      have hslot : stack.toNat + 2 * (capacity.toNat - (held.length + 1) + 1 + 0) =
          stack.toNat + w.toNat * 2 := by omega
      rw [hslot, hc₂.word (by omega), hw₁]
    | succ k =>
      have hslot : stack.toNat + 2 * (capacity.toNat - (held.length + 1) + 1 + (k + 1)) =
          stack.toNat + 2 * (capacity.toNat - held.length + 1 + k) := by omega
      rw [hslot, hc₂.word (by omega), hc₁.word (by omega)]
      exact h.slot k x hk
  · apply IsTrans.trans _ m₁ _
    · exact hc₁.within fun b hlow hhigh => ⟨by omega, by omega⟩
    · exact hc₂.within fun b hlow hhigh => ⟨by omega, by omega⟩

theorem push_full (h : HoldsStack stack capacity m held) (full : ¬ held.length < capacity.toNat) :
    pushUserStack stack.toNat v m = .ok false m := by
  obtain ⟨w, hw, hfree⟩ := h.free
  have hzero : w = 0 := by
    apply UInt16.toNat_inj.1
    rw [UInt16.toNat_zero]
    omega
  rw [pushUserStack, bind_ok _ (reading_ok (f := (Memory.word · stack.toNat)) hw), if_pos hzero]
  rfl

theorem drop_ok {k : Nat} (free : UInt16) (h : HoldsStack stack capacity m held) (hk : k ≤ held.length)
    (hfree : free.toNat + held.length = capacity.toNat + k) :
    ∃ m', Memory.setWord stack.toNat free m = .ok () m' ∧ HoldsStack stack capacity m' (held.drop k) ∧
      ChangesWithin (StackByte stack capacity) m m' := by
  have hinside := h.inside
  obtain ⟨w, -, hold⟩ := h.free
  obtain ⟨m', hset, hc, hw⟩ := Memory.setWord_ok (m := m) (a := stack.toNat) free (by omega)
  have hsize : m'.bytes.size = m.bytes.size := hc.size
  refine ⟨m', hset, ⟨by omega, ⟨free, hw, ?_⟩, fun j x hj => ?_⟩, ?_⟩
  · rw [List.length_drop]
    omega
  · rw [List.getElem?_drop] at hj
    have hlt : k + j < held.length := (List.getElem?_eq_some_iff.1 hj).1
    have hslot : stack.toNat + 2 * (capacity.toNat - (held.length - k) + 1 + j) =
        stack.toNat + 2 * (capacity.toNat - held.length + 1 + (k + j)) := by omega
    rw [List.length_drop, hslot, hc.word (by omega)]
    exact h.slot (k + j) x hj
  · exact hc.within fun b hlow hhigh => ⟨hlow, by omega⟩

theorem serve_ok {r : StackRequest} {answer : StackAnswer} {held' : List UInt16}
    (h : HoldsStack stack capacity m held) (possible : r.answer? capacity.toNat held = some (answer, held')) :
    ∃ m', serve stack.toNat r m = .ok answer m' ∧ HoldsStack stack capacity m' held' ∧
      ChangesWithin (StackByte stack capacity) m m' ∧ (answer = .room false → m' = m) := by
  obtain ⟨w, hw, hfree⟩ := h.free
  have hread : Action.reading (Memory.word · stack.toNat) m = .ok w m := reading_ok hw
  have hlimit := capacity.toNat_lt
  cases r with
  | push v =>
    rw [StackRequest.answer?] at possible
    split at possible
    · next room =>
      cases possible
      obtain ⟨m', hpush, hholds, hc⟩ := h.push_ok (v := v) room
      exact ⟨m', bind_ok _ hpush, hholds, hc, nofun⟩
    · next full =>
      cases possible
      exact ⟨m, bind_ok _ (h.push_full full), h, refl m, fun _ => rfl⟩
  | pull =>
    cases held with
    | nil => cases possible
    | cons v held =>
      cases possible
      rw [List.length_cons] at hfree
      have hsucc : (w + 1).toNat = w.toNat + 1 := by
        rw [UInt16.toNat_add, UInt16.toNat_one]
        omega
      have hvalue : m.word (stack.toNat + (w + 1).toNat * 2) = .ok v := by
        rw [← h.slot 0 v rfl, List.length_cons]
        congr 1
        omega
      obtain ⟨m', hset, hholds, hc⟩ := h.drop_ok (k := 1) (w + 1) (by simp) (by simp; omega)
      have hpull : pullUserStack stack.toNat m = .ok v m' := by
        rw [pullUserStack, bind_ok _ hread,
          bind_ok _ (reading_ok (f := (Memory.word · (stack.toNat + (w + 1).toNat * 2))) hvalue), bind_ok _ hset]
        rfl
      exact ⟨m', bind_ok _ hpull, hholds, hc, nofun⟩
  | drop n =>
    rw [StackRequest.answer?] at possible
    split at possible
    · next few =>
      cases possible
      have hsum : (w + n).toNat = w.toNat + n.toNat := by
        rw [UInt16.toNat_add]
        omega
      obtain ⟨m', hset, hholds, hc⟩ := h.drop_ok (w + n) few (by omega)
      have hdrop : dropUserStack stack.toNat n m = .ok () m' := by
        rw [dropUserStack, bind_ok _ hread, hset]
      exact ⟨m', bind_ok _ hdrop, hholds, hc, nofun⟩
    · cases possible

end HoldsStack

/-- A run from `s` with instructions on a user stack, in which no more values are taken off than it should
hold. The table is written by nothing else: not by what an instruction does with its answer, nor in
between. -/
inductive Uses (stack capacity : UInt16) (s : Machine η) : List UInt16 → Machine η → Prop
  | start : Uses stack capacity s [] s
  | request {held held' operands : List UInt16} {t : Machine η} {r : StackRequest} {answer : StackAnswer}
    {i : Instruction} (run : Uses stack capacity s held t) (asked : r.Asked i stack operands)
    (possible : r.answer? capacity.toNat held = some (answer, held'))
    (apart : ChangesWithin (fun b => ¬ StackByte stack capacity b)
      (ending (serve stack.toNat r t.core.memory)) (ending (executeRoutine i operands t)).core.memory) :
    Uses stack capacity s held' (ending (executeRoutine i operands t))
  | meanwhile {held : List UInt16} {t u : Machine η} (run : Uses stack capacity s held t)
    (apart : ChangesWithin (fun b => ¬ StackByte stack capacity b) t.core.memory u.core.memory) :
    Uses stack capacity s held u

variable {stack capacity : UInt16} {held : List UInt16} {s t : Machine η}

theorem Uses.holds (run : Uses stack capacity s held t)
    (empty : HoldsStack stack capacity s.core.memory []) :
    HoldsStack stack capacity t.core.memory held := by
  induction run with
  | start => exact empty
  | request run asked possible apart ih =>
    obtain ⟨m, hserve, hholds, -⟩ := ih.serve_ok possible
    rw [hserve, ending_ok] at apart
    exact hholds.of_within apart
  | meanwhile run apart ih => exact ih.of_within apart

end Machine

end ZMachine
