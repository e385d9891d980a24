import Mathlib.Algebra.Group.Int.Defs
import Mathlib.Algebra.Group.Nat.Defs
import ZMachine.Proofs.Action

/-!
Numbers of bounded width. An operation whose result does not fit, or that looks up a place which
is not there, stops the computation with a trap, apart from the faults that a story may bring
about. A computation agrees with its counterpart on numbers without bound if it never traps and
comes to the same.
-/

namespace ZMachine

/-- The faults that a story can bring about. -/
def Fault.Expected : Fault → Prop
  | .defect _ => False
  | .invalidStory (.unhandled _ _) => False
  | _ => True

namespace Checked

inductive Trap (ε : Type) where
  | fault (cause : ε)
  | overflow
  | outOfBounds

abbrev Calc (α : Type) := Except (Trap Fault) α

abbrev Work (σ α : Type) := EStateM (Trap Fault) σ α

instance liftExcept {ε σ : Type} : MonadLift (Except ε) (EStateM ε σ) where
  monadLift x s :=
    match x with
    | .ok a => .ok a s
    | .error e => .error e s

variable {ε σ α β : Type}

def raise (e : Fault) : Calc α := .error (.fault e)

def fit (bits n : Nat) : Calc Nat := if n < 2 ^ bits then .ok n else .error .overflow

def fitSigned (bits : Nat) (n : Int) : Calc Int :=
  if -2 ^ bits ≤ n ∧ n < 2 ^ bits then .ok n else .error .overflow

def add (bits a b : Nat) : Calc Nat := fit bits (a + b)

def mul (bits a b : Nat) : Calc Nat := fit bits (a * b)

def sub (a b : Nat) : Calc Nat := if b ≤ a then .ok (a - b) else .error .overflow

def shiftLeft (bits a places : Nat) : Calc Nat :=
  if places < bits then .ok (a <<< places % 2 ^ bits) else .error .overflow

def shiftRight (bits a places : Nat) : Calc Nat :=
  if places < bits then .ok (a >>> places) else .error .overflow

def element : Option α → Calc α
  | some a => .ok a
  | none => .error .outOfBounds

def span (start stop size : Nat) : Calc Unit :=
  if start ≤ stop ∧ stop ≤ size then .ok () else .error .outOfBounds

def plain : Except Fault α → Calc α
  | .ok a => .ok a
  | .error e => .error (.fault e)

def read (f : σ → Calc α) : Work σ α := fun s =>
  match f s with
  | .ok a => .ok a s
  | .error e => .error e s

def untrapped : EStateM.Result ε σ α → EStateM.Result (Trap ε) σ α
  | .ok a s => .ok a s
  | .error e s => .error (.fault e) s

def plainly (act : Action σ α) : Work σ α := fun s => untrapped (act s)

section Operations

variable {bits a b n : Nat}

theorem fit_of_lt (h : n < 2 ^ bits) : fit bits n = .ok n := if_pos h

theorem fitSigned_of_bounds {n : Int} (h : -2 ^ bits ≤ n) (h' : n < 2 ^ bits) :
    fitSigned bits n = .ok n := if_pos ⟨h, h'⟩

theorem add_of_lt (h : a + b < 2 ^ bits) : add bits a b = .ok (a + b) := if_pos h

theorem mul_of_lt (h : a * b < 2 ^ bits) : mul bits a b = .ok (a * b) := if_pos h

theorem sub_of_le (h : b ≤ a) : sub a b = .ok (a - b) := if_pos h

theorem shiftLeft_of_lt (h : n < bits) : shiftLeft bits a n = .ok (a <<< n % 2 ^ bits) := if_pos h

theorem shiftRight_of_lt (h : n < bits) : shiftRight bits a n = .ok (a >>> n) := if_pos h

theorem span_of_le {start stop size : Nat} (h : start ≤ stop) (h' : stop ≤ size) :
    span start stop size = .ok () := if_pos ⟨h, h'⟩

theorem ok_bind (a : α) (f : α → Except ε β) : (Except.ok a >>= f) = f a := rfl

theorem lift_ok_bind (a : α) (f : α → EStateM ε σ β) :
    (liftM (Except.ok a : Except ε α) >>= f) = f a := rfl

end Operations

/-- Both computations have the same value or the same fault, which is an expected one. -/
inductive Agrees : Calc α → Except Fault α → Prop
  | ok (a : α) : Agrees (.ok a) (.ok a)
  | error {e : Fault} (h : e.Expected) : Agrees (.error (.fault e)) (.error e)

namespace Agrees

theorem eq_plain {x : Calc α} {y : Except Fault α} (h : Agrees x y) : x = plain y := by
  cases h with
  | ok a => rfl
  | error h => rfl

theorem expected {x : Calc α} {e : Fault} (h : Agrees x (.error e)) : e.Expected := by
  cases h with
  | error h => exact h

theorem bind {x : Calc α} {y : Except Fault α} {f : α → Calc β} {g : α → Except Fault β}
    (hx : Agrees x y) (hf : ∀ a, y = .ok a → Agrees (f a) (g a)) : Agrees (x >>= f) (y >>= g) := by
  cases hx with
  | ok a => exact hf a rfl
  | error h => exact .error h

theorem map {x : Calc α} {y : Except Fault α} (f : α → β) (h : Agrees x y) :
    Agrees (f <$> x) (f <$> y) := by
  cases h with
  | ok a => exact .ok _
  | error h => exact .error h

theorem ite {c : Prop} [Decidable c] {x x' : Calc α} {y y' : Except Fault α}
    (h : c → Agrees x y) (h' : ¬c → Agrees x' y') :
    Agrees (if c then x else x') (if c then y else y') := by
  split
  · next hc => exact h hc
  · next hc => exact h' hc

end Agrees

/-- Both actions end in the same state, with the same value or the same expected fault. -/
inductive Follows : EStateM.Result (Trap Fault) σ α → EStateM.Result Fault σ α → Prop
  | ok (a : α) (s : σ) : Follows (.ok a s) (.ok a s)
  | error {e : Fault} (s : σ) (h : e.Expected) : Follows (.error (.fault e) s) (.error e s)

def Mild (act : Action σ α) : Prop := ∀ s e t, act s = .error e t → e.Expected

/-- From every state with an invariant both actions do the same, and keep it. -/
def Tracks (P : σ → Prop) (x : Work σ α) (y : Action σ α) : Prop :=
  ∀ s, P s → Follows (x s) (y s) ∧ P (ending (y s))

namespace Tracks

variable {P : σ → Prop}

theorem pure (a : α) : Tracks P (Pure.pure a) (Pure.pure a) := fun s hs => ⟨.ok a s, hs⟩

theorem throw {e : Fault} (h : e.Expected) :
    Tracks P (throw (.fault e) : Work σ α) (throw e) := fun s hs => ⟨.error s h, hs⟩

theorem get : Tracks P get get := fun s hs => ⟨.ok s s, hs⟩

theorem modify {f : σ → σ} (h : ∀ s, P s → P (f s)) : Tracks P (modify f) (modify f) :=
  fun s hs => ⟨.ok _ _, h s hs⟩

theorem bind_ok {x : Work σ α} {y : Action σ α} {f : α → Work σ β} {g : α → Action σ β}
    (hx : Tracks P x y)
    (hf : ∀ a s t, P s → y s = .ok a t → P t → Follows (f a t) (g a t) ∧ P (ending (g a t))) :
    Tracks P (x >>= f) (y >>= g) := by
  intro s hs
  obtain ⟨hr, ht⟩ := hx s hs
  generalize hxs : x s = r, hys : y s = q at hr
  rw [hys] at ht
  cases hr with
  | ok a t =>
    rw [ZMachine.bind_ok f hxs, ZMachine.bind_ok g hys]
    exact hf a s t hs hys ht
  | error t h =>
    rw [bind_error f hxs, bind_error g hys]
    exact ⟨.error t h, ht⟩

theorem bind {x : Work σ α} {y : Action σ α} {f : α → Work σ β} {g : α → Action σ β}
    (hx : Tracks P x y) (hf : ∀ a, Tracks P (f a) (g a)) : Tracks P (x >>= f) (y >>= g) :=
  hx.bind_ok fun a _ t _ _ ht => hf a t ht

theorem ite {c : Prop} [Decidable c] {x x' : Work σ α} {y y' : Action σ α}
    (h : c → Tracks P x y) (h' : ¬c → Tracks P x' y') :
    Tracks P (if c then x else x') (if c then y else y') := by
  split
  · next hc => exact h hc
  · next hc => exact h' hc

theorem read {f : σ → Calc α} {g : σ → Except Fault α} (h : ∀ s, P s → Agrees (f s) (g s)) :
    Tracks P (read f) (Action.reading g) := by
  intro s hs
  have hr := h s hs
  unfold Checked.read Action.reading
  generalize f s = r, g s = q at hr
  cases hr with
  | ok a => exact ⟨.ok a s, hs⟩
  | error h => exact ⟨.error s h, hs⟩

theorem bind_read {f : σ → Calc α} {g : σ → Except Fault α} {x : α → Work σ β}
    {y : α → Action σ β} (h : ∀ s, P s → Agrees (f s) (g s))
    (hx : ∀ a s, g s = .ok a → Tracks P (x a) (y a)) :
    Tracks P (Checked.read f >>= x) (Action.reading g >>= y) := by
  refine (read h).bind_ok fun a s t _ hs ht => ?_
  cases hg : g s with
  | error e =>
    rw [Action.reading, hg] at hs
    cases hs
  | ok b =>
    rw [reading_ok hg] at hs
    cases hs
    exact hx _ s hg s ht

theorem plainly {act : Action σ α} (mild : Mild act) (kept : Leads (Kept P) act) :
    Tracks P (plainly act) act := by
  intro s hs
  refine ⟨?_, kept s hs⟩
  unfold Checked.plainly
  cases hr : act s with
  | ok a t => exact .ok a t
  | error e t => exact .error t (mild s e t hr)

theorem guarded {guard : σ → Calc Unit} {act : Action σ α} (kept : Leads (Kept P) act)
    (h : ∀ s, P s → (guard s = .ok () ∧ ∃ a t, act s = .ok a t) ∨
      ∃ e : Fault, e.Expected ∧ guard s = raise e ∧ act s = .error e s) :
    Tracks P (do Checked.read guard; Checked.plainly act) act := by
  intro s hs
  refine ⟨?_, kept s hs⟩
  obtain ⟨hg, a, t, ha⟩ | ⟨e, he, hg, ha⟩ := h s hs
  · have hr : Checked.read guard s = .ok () s := by rw [Checked.read, hg]
    rw [ZMachine.bind_ok _ hr, Checked.plainly, ha]
    exact .ok a t
  · have hr : Checked.read guard s = .error (.fault e) s := by
      rw [Checked.read, hg]
      rfl
    rw [bind_error _ hr, ha]
    exact .error s he

end Tracks

end Checked

end ZMachine
