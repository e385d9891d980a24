import Mathlib.Order.Defs.Unbundled
import ZMachine.Fault

/-!
Actions by where they lead: a relation between the states before and after, kept by a success as
by a failure. For a reflexive and transitive relation it is enough to look at the parts of an
action.
-/

namespace ZMachine

variable {ε σ α β : Type}

theorem ok_of_bind_except {ε α β : Type} {x : Except ε α} {f : α → Except ε β} {b : β}
    (h : x >>= f = .ok b) : ∃ a, x = .ok a ∧ f a = .ok b := by
  cases x with
  | error e => cases h
  | ok a => exact ⟨a, rfl, h⟩

theorem error_of_bind_except {x : Except ε α} {f : α → Except ε β} {e : ε} (h : x >>= f = .error e) :
    x = .error e ∨ ∃ a, x = .ok a ∧ f a = .error e := by
  cases x with
  | error e' =>
    cases h
    exact .inl rfl
  | ok a => exact .inr ⟨a, rfl, h⟩

theorem ok_of_map {x : Except ε α} {f : α → β} {b : β} (h : f <$> x = .ok b) :
    ∃ a, x = .ok a ∧ f a = b := by
  cases x with
  | error e => cases h
  | ok a => exact ⟨a, rfl, Except.ok.inj h⟩

theorem ok_of_toOption {x : Except ε α} {a : α} (h : x.toOption = some a) : x = .ok a := by
  cases x with
  | error e => cases h
  | ok b => exact congrArg Except.ok (Option.some.inj h)

def ending : EStateM.Result ε σ α → σ
  | .ok _ s => s
  | .error _ s => s

@[simp] theorem ending_ok (a : α) (s : σ) : ending (.ok a s : EStateM.Result ε σ α) = s := rfl

@[simp] theorem ending_error (e : ε) (s : σ) :
    ending (.error e s : EStateM.Result ε σ α) = s := rfl

theorem bind_ok {x : EStateM ε σ α} {s t : σ} {a : α} (f : α → EStateM ε σ β) (h : x s = .ok a t) :
    (x >>= f) s = f a t := by
  change EStateM.bind x f s = _
  rw [EStateM.bind, h]

theorem bind_error {x : EStateM ε σ α} {s t : σ} {e : ε} (f : α → EStateM ε σ β)
    (h : x s = .error e t) : (x >>= f) s = .error e t := by
  change EStateM.bind x f s = _
  rw [EStateM.bind, h]

theorem bind_eq_of_eq {x y : EStateM ε σ α} {s : σ} (f : α → EStateM ε σ β) (h : x s = y s) :
    (x >>= f) s = (y >>= f) s := by
  change EStateM.bind x f s = EStateM.bind y f s
  rw [EStateM.bind, EStateM.bind, h]

theorem bind_get (f : σ → EStateM ε σ β) (s : σ) : (get >>= f) s = f s s := rfl

theorem ok_of_bind_ok {x : EStateM ε σ α} {f : α → EStateM ε σ β} {s u : σ} {b : β}
    (h : (x >>= f) s = .ok b u) : ∃ a t, x s = .ok a t ∧ f a t = .ok b u := by
  cases hx : x s with
  | ok a t => exact ⟨a, t, rfl, bind_ok f hx ▸ h⟩
  | error e t =>
    rw [bind_error f hx] at h
    cases h

theorem reading_ok {f : σ → Except Fault α} {s : σ} {a : α} (h : f s = .ok a) :
    Action.reading f s = .ok a s := by
  rw [Action.reading, h]

theorem reading_error {f : σ → Except Fault α} {s : σ} {e : Fault} (h : f s = .error e) :
    Action.reading f s = .error e s := by
  rw [Action.reading, h]

theorem ending_reading_bind {R : σ → σ → Prop} [Std.Refl R] {f : σ → Except Fault α}
    {g : α → Action σ β} {s : σ} (h : ∀ a, f s = .ok a → R s (ending (g a s))) :
    R s (ending ((Action.reading f >>= g) s)) := by
  cases hf : f s with
  | ok a =>
    rw [bind_ok g (reading_ok hf)]
    exact h a hf
  | error e =>
    rw [bind_error g (t := s) (e := e) (by rw [Action.reading, hf])]
    exact Std.Refl.refl s

/-- Whatever the action comes to, it leaves a state related to the one before. -/
def Leads (R : σ → σ → Prop) (act : EStateM ε σ α) : Prop := ∀ s, R s (ending (act s))

namespace Leads

variable {R : σ → σ → Prop}

theorem of_ok {act : EStateM ε σ α} {s t : σ} {a : α} (h : Leads R act) (hs : act s = .ok a t) :
    R s t := by
  have hr := h s
  rw [hs] at hr
  exact hr

theorem of_error {act : EStateM ε σ α} {s t : σ} {e : ε} (h : Leads R act)
    (hs : act s = .error e t) : R s t := by
  have hr := h s
  rw [hs] at hr
  exact hr

theorem bind [IsTrans σ R] {x : EStateM ε σ α} {f : α → EStateM ε σ β} (hx : Leads R x)
    (hf : ∀ a, Leads R (f a)) : Leads R (x >>= f) := by
  intro s
  cases hs : x s with
  | ok a t =>
    rw [bind_ok f hs]
    exact IsTrans.trans _ _ _ (hx.of_ok hs) (hf a t)
  | error e t =>
    rw [bind_error f hs]
    exact hx.of_error hs

theorem map {x : EStateM ε σ α} (f : α → β) (hx : Leads R x) : Leads R (f <$> x) := by
  intro s
  change R s (ending (EStateM.map f x s))
  rw [EStateM.map]
  cases hs : x s with
  | ok a t => exact hx.of_ok hs
  | error e t => exact hx.of_error hs

theorem ite {c : Prop} [Decidable c] {x y : EStateM ε σ α} (hx : Leads R x) (hy : Leads R y) :
    Leads R (if c then x else y) := by
  split
  · exact hx
  · exact hy

theorem modify {f : σ → σ} (hf : ∀ s, R s (f s)) : Leads R (modify f : EStateM ε σ PUnit) := hf

variable [Std.Refl R]

theorem pure (a : α) : Leads R (Pure.pure a : EStateM ε σ α) := Std.Refl.refl

theorem throw (e : ε) : Leads R (throw e : EStateM ε σ α) := Std.Refl.refl

theorem get : Leads R (get : EStateM ε σ σ) := Std.Refl.refl

theorem reading {R : σ → σ → Prop} [Std.Refl R] (f : σ → Except Fault α) :
    Leads R (Action.reading f) := by
  intro s
  rw [Action.reading]
  cases f s with
  | ok a => exact Std.Refl.refl s
  | error e => exact Std.Refl.refl s

end Leads

def Kept (P : σ → Prop) (s t : σ) : Prop := P s → P t

instance (P : σ → Prop) : IsPreorder σ (Kept P) where
  refl _ := id
  trans _ _ _ h h' := h' ∘ h

theorem Leads.kept {R : σ → σ → Prop} {P : σ → Prop} {act : EStateM ε σ α} (h : Leads R act)
    (hP : ∀ {s t}, P s → R s t → P t) : Leads (Kept P) act :=
  fun s hs => hP hs (h s)

end ZMachine
