import Mathlib.Data.List.Perm.Subperm
import ZMachine.Proofs.Object.Links

namespace ZMachine.ObjectTable

variable {t : ObjectTable} {n obj first : UInt16} {m m' : Memory} {xs ys : List UInt16}

/-- Next siblings lead from `first` through exactly these objects, and then to 0. -/
def Follows (t : ObjectTable) (m : Memory) : UInt16 → List UInt16 → Prop
  | first, [] => first = 0
  | first, x :: xs => first = x ∧ ∃ next, t.sibling m x = .ok next ∧ Follows t m next xs

def Children (t : ObjectTable) (m : Memory) (p : UInt16) (xs : List UInt16) : Prop :=
  ∃ first, t.child m p = .ok first ∧ t.Follows m first xs

def IsChild (t : ObjectTable) (n : UInt16) (m : Memory) (x p : UInt16) : Prop :=
  Numbered n x ∧ t.parent m x = .ok p

/-- Each object from 1 to `n` lists, without repetition, exactly those that name it as their
parent. -/
structure Consistent (t : ObjectTable) (n : UInt16) (m : Memory) : Prop where
  holds : t.Holds n m
  children : ∀ p, Numbered n p → ∃ xs, t.Children m p xs ∧ xs.Nodup ∧ ∀ x, x ∈ xs ↔ t.IsChild n m x p

theorem isChild_congr {x p : UInt16} (h : ∀ x, Numbered n x → x ≠ obj → t.parent m' x = t.parent m x)
    (hx : x ≠ obj) : t.IsChild n m' x p ↔ t.IsChild n m x p := by
  refine and_congr_right fun hn => ?_
  rw [h x hn hx]

theorem sibling_zero (t : ObjectTable) (m : Memory) : t.sibling m 0 = .error (.invalidObject 0) := rfl

theorem ne_zero_of_sibling {x v : UInt16} (h : t.sibling m x = .ok v) : x ≠ 0 := by
  rintro rfl
  rw [sibling_zero] at h
  cases h

namespace Follows

theorem congr (h : t.Follows m first xs) (hs : ∀ x ∈ xs, t.sibling m' x = t.sibling m x) :
    t.Follows m' first xs := by
  induction xs generalizing first with
  | nil => exact h
  | cons x xs ih =>
    obtain ⟨rfl, next, hnext, hxs⟩ := h
    refine ⟨rfl, next, ?_, ih hxs fun y hy => hs y (List.mem_cons_of_mem _ hy)⟩
    rw [hs _ List.mem_cons_self, hnext]

theorem unique (h : t.Follows m first xs) (h' : t.Follows m first ys) : xs = ys := by
  induction xs generalizing first ys with
  | nil =>
    cases ys with
    | nil => rfl
    | cons y ys =>
      obtain ⟨rfl, next, hnext, -⟩ := h'
      exact absurd h (ne_zero_of_sibling hnext)
  | cons x xs ih =>
    obtain ⟨rfl, next, hnext, hxs⟩ := h
    cases ys with
    | nil => exact absurd h' (ne_zero_of_sibling hnext)
    | cons y ys =>
      obtain ⟨rfl, next', hnext', hys⟩ := h'
      rw [hnext] at hnext'
      cases hnext'
      rw [ih hxs hys]

theorem numbered (ht : t.Holds n m) (hfirst : first ≤ n) (h : t.Follows m first xs) :
    ∀ x ∈ xs, Numbered n x := by
  induction xs generalizing first with
  | nil => simp
  | cons x xs ih =>
    obtain ⟨rfl, next, hnext, hxs⟩ := h
    have hx : Numbered n first := ⟨ne_zero_of_sibling hnext, hfirst⟩
    have hle : next ≤ n := ht.closed first .sibling next hx hnext
    intro y hy
    obtain rfl | hy := List.mem_cons.1 hy
    · exact hx
    · exact ih hle hxs y hy

theorem unlink {as bs : List UInt16} {e : UInt16} (h : t.Follows m first (as ++ e :: obj :: bs))
    (he : t.sibling m' e = t.sibling m obj)
    (hs : ∀ x ∈ as ++ bs, t.sibling m' x = t.sibling m x) : t.Follows m' first (as ++ e :: bs) := by
  induction as generalizing first with
  | nil =>
    obtain ⟨rfl, next, -, rfl, next', hnext', hbs⟩ := h
    refine ⟨rfl, next', ?_, hbs.congr hs⟩
    rw [he, hnext']
  | cons a as ih =>
    obtain ⟨rfl, next, hnext, hrest⟩ := h
    refine ⟨rfl, next, ?_, ih hrest fun x hx => hs x (List.mem_cons_of_mem _ hx)⟩
    rw [hs _ List.mem_cons_self, hnext]

end Follows

theorem elderSibling_ok (p : UInt16) {left : Nat} (h : t.Follows m first xs) (hmem : obj ∈ xs)
    (hfirst : first ≠ obj) (hleft : xs.length ≤ left) :
    ∃ as e bs, xs = as ++ e :: obj :: bs ∧ t.elderSibling m p obj left first = .ok e := by
  induction xs generalizing first left with
  | nil => cases hmem
  | cons x xs ih =>
    obtain ⟨rfl, next, hnext, hxs⟩ := h
    obtain _ | left := left
    · cases hleft
    · rw [elderSibling, if_neg (ne_zero_of_sibling hnext), hnext]
      have hmem' : obj ∈ xs := (List.mem_cons.1 hmem).resolve_left (Ne.symm hfirst)
      by_cases hn : next = obj
      · obtain _ | ⟨y, bs⟩ := xs
        · cases hmem'
        · obtain ⟨rfl, -⟩ := hxs
          subst hn
          exact ⟨[], first, bs, rfl, if_pos rfl⟩
      · obtain ⟨as, e, bs, rfl, hfound⟩ := ih hxs hmem' hn (Nat.le_of_succ_le_succ hleft)
        exact ⟨first :: as, e, bs, rfl, (if_neg hn).trans hfound⟩

theorem length_le_of_nodup (hnd : xs.Nodup) (hx : ∀ x ∈ xs, Numbered n x) : xs.length ≤ 65535 := by
  have hsub : xs.map UInt16.toNat ⊆ List.range' 1 65535 := by
    intro k hk
    obtain ⟨x, hmem, rfl⟩ := List.mem_map.1 hk
    have hpos := (hx x hmem).toNat
    have hlt := x.toNat_lt
    rw [List.mem_range'_1]
    omega
  have hnd' : (xs.map UInt16.toNat).Nodup :=
    List.Pairwise.map _ (fun _ _ hne heq => hne (UInt16.toNat_inj.1 heq)) hnd
  have hlen := (List.subperm_of_subset hnd' hsub).length_le
  rwa [List.length_map, List.length_range'] at hlen

namespace Children

theorem unique {p : UInt16} (h : t.Children m p xs) (h' : t.Children m p ys) : xs = ys := by
  obtain ⟨first, hfirst, hxs⟩ := h
  obtain ⟨first', hfirst', hys⟩ := h'
  rw [hfirst] at hfirst'
  cases hfirst'
  exact hxs.unique hys

theorem numbered {p : UInt16} (ht : t.Holds n m) (hp : Numbered n p) (h : t.Children m p xs) :
    ∀ x ∈ xs, Numbered n x := by
  obtain ⟨first, hfirst, hxs⟩ := h
  exact hxs.numbered ht (ht.closed p .child first hp hfirst)

end Children

namespace Assigns

variable {x v p : UInt16} {r : Relation}

theorem follows (ha : t.Assigns n x r v m m') (hn : ∀ y ∈ xs, Numbered n y)
    (hs : ¬ (x ∈ xs ∧ r = .sibling)) (h : t.Follows m first xs) : t.Follows m' first xs := by
  apply h.congr
  intro y hy
  apply ha.other (hn y hy)
  rintro ⟨rfl, rfl⟩
  exact hs ⟨hy, rfl⟩

theorem children (ha : t.Assigns n x r v m m') (ht : t.Holds n m) (hp : Numbered n p)
    (hc : ¬ (p = x ∧ r = .child)) (hs : ¬ (x ∈ xs ∧ r = .sibling)) (h : t.Children m p xs) :
    t.Children m' p xs := by
  have hn := h.numbered ht hp
  obtain ⟨first, hfirst, hxs⟩ := h
  refine ⟨first, ?_, ha.follows hn hs hxs⟩
  have hsame : t.child m' p = t.child m p := by
    apply ha.other hp
    rintro ⟨rfl, rfl⟩
    exact hc ⟨rfl, rfl⟩
  rw [hsame, hfirst]

end Assigns

end ZMachine.ObjectTable
