import Mathlib.Data.List.Nodup
import Mathlib.Logic.Relation
import ZMachine.Proofs.Object.Chain

namespace ZMachine.ObjectTable

variable {t : ObjectTable} {n obj dest p s : UInt16} {m m' m'' : Memory} {xs : List UInt16}

theorem Consistent.mem_iff (h : t.Consistent n m) (hp : Numbered n p) (hxs : t.Children m p xs) {x : UInt16} :
    x ∈ xs ↔ t.IsChild n m x p := by
  obtain ⟨ys, hys, -, hmem⟩ := h.children p hp
  rw [hxs.unique hys]
  exact hmem x

theorem Consistent.nodup (h : t.Consistent n m) (hp : Numbered n p) (hxs : t.Children m p xs) : xs.Nodup := by
  obtain ⟨ys, hys, hnd, -⟩ := h.children p hp
  rwa [hxs.unique hys]

theorem Consistent.not_mem {q x : UInt16} (h : t.Consistent n m) (hq : Numbered n q) (hxs : t.Children m q xs)
    (hparent : t.parent m x = .ok p) (hne : q ≠ p) : x ∉ xs := by
  intro hmem
  have hq' := ((h.mem_iff hq hxs).1 hmem).2
  rw [hparent] at hq'
  cases hq'
  exact hne rfl

theorem filter_ne_eq_self (h : obj ∉ xs) : xs.filter (· ≠ obj) = xs := by
  rw [List.filter_eq_self]
  rintro x hx
  simp only [decide_eq_true_eq]
  rintro rfl
  exact h hx

theorem filter_ne_middle {as bs : List UInt16} (h : (as ++ obj :: bs).Nodup) :
    (as ++ obj :: bs).filter (· ≠ obj) = as ++ bs := by
  have hout : obj ∉ as ++ bs := (List.nodup_cons.1 (List.nodup_middle.1 h)).1
  rw [List.filter_append, List.filter_cons_of_neg (by simp), ← List.filter_append, filter_ne_eq_self hout]

structure Unlinked (t : ObjectTable) (n obj : UInt16) (m m' : Memory) : Prop where
  holds : t.Holds n m'
  parents : ∀ x, Numbered n x → t.parent m' x = t.parent m x
  lists : ∀ p xs, Numbered n p → t.Children m p xs → t.Children m' p (xs.filter (· ≠ obj))

theorem unlink_first (h : t.Consistent n m) (hobj : Numbered n obj) (hp : Numbered n p)
    (hparent : t.parent m obj = .ok p) (hs : t.sibling m obj = .ok s) (hfirst : t.child m p = .ok obj) :
    ∃ m', t.setRelation p .child s m = .ok () m' ∧ t.Unlinked n obj m m' := by
  have hsn : s ≤ n := h.holds.closed obj .sibling s hobj hs
  obtain ⟨m', hset, ha⟩ := setRelation_ok (r := .child) h.holds hp hsn
  refine ⟨m', hset, ha.holds, fun x hx => ha.other hx (by simp), ?_⟩
  intro q xs hq hxs
  by_cases hqp : q = p
  · subst hqp
    have hnd := h.nodup hq hxs
    have hn := hxs.numbered h.holds hq
    obtain ⟨first, hf, hfol⟩ := hxs
    rw [hfirst] at hf
    cases hf
    obtain _ | ⟨x, bs⟩ := xs
    · exact absurd hfol hobj.1
    · obtain ⟨rfl, next, hnext, hbs⟩ := hfol
      rw [hs] at hnext
      cases hnext
      rw [List.filter_cons_of_neg (by simp), filter_ne_eq_self (List.nodup_cons.1 hnd).1]
      exact ⟨s, ha.here, ha.follows (fun y hy => hn y (List.mem_cons_of_mem _ hy)) (by simp) hbs⟩
  · rw [filter_ne_eq_self (h.not_mem hq hxs hparent hqp)]
    exact ha.children h.holds hq (by simp [hqp]) (by simp) hxs

theorem unlink_later {first : UInt16} (h : t.Consistent n m) (hobj : Numbered n obj) (hp : Numbered n p)
    (hparent : t.parent m obj = .ok p) (hs : t.sibling m obj = .ok s) (hfirst : t.child m p = .ok first)
    (hne : first ≠ obj) :
    ∃ e m', t.elderSibling m p obj 65535 first = .ok e ∧ t.setRelation e .sibling s m = .ok () m' ∧
      t.Unlinked n obj m m' := by
  have hsn : s ≤ n := h.holds.closed obj .sibling s hobj hs
  obtain ⟨zs, hzs, hnd, hmem⟩ := h.children p hp
  have hn := hzs.numbered h.holds hp
  obtain ⟨first', hf, hfol⟩ := hzs
  rw [hfirst] at hf
  cases hf
  obtain ⟨as, e, bs, rfl, helder⟩ := elderSibling_ok p hfol ((hmem obj).2 ⟨hobj, hparent⟩) hne
    (length_le_of_nodup hnd hn)
  have hen : Numbered n e := hn e (by simp)
  obtain ⟨m', hset, ha⟩ := setRelation_ok (r := .sibling) h.holds hen hsn
  refine ⟨e, m', helder, hset, ha.holds, fun x hx => ha.other hx (by simp), ?_⟩
  intro q xs hq hxs
  by_cases hqp : q = p
  · subst hqp
    rw [hxs.unique ⟨first, hfirst, hfol⟩]
    have hout : e ∉ as ++ obj :: bs := (List.nodup_cons.1 (List.nodup_middle.1 hnd)).1
    have hkeep : (as ++ e :: obj :: bs).filter (· ≠ obj) = as ++ e :: bs := by
      have hnd' : ((as ++ [e]) ++ obj :: bs).Nodup := by simpa using hnd
      simpa using filter_ne_middle hnd'
    rw [hkeep]
    refine ⟨first, ?_, hfol.unlink ?_ ?_⟩
    · rw [← hfirst]
      exact ha.other hp (by simp)
    · rw [hs]
      exact ha.here
    · intro x hx
      have hmem' : x ∈ as ++ e :: obj :: bs := by grind
      have hxe : x ≠ e := by
        rintro rfl
        exact hout (by grind)
      exact ha.other (hn x hmem') (by simp [hxe])
  · have heparent : t.parent m e = .ok p := ((hmem e).1 (by simp)).2
    rw [filter_ne_eq_self (h.not_mem hq hxs hparent hqp)]
    exact ha.children h.holds hq (by simp) (fun hmem => h.not_mem hq hxs heparent hqp hmem.1) hxs

structure Removed (t : ObjectTable) (n obj : UInt16) (m m' : Memory) : Prop where
  holds : t.Holds n m'
  parent : t.parent m' obj = .ok 0
  parents : ∀ x, Numbered n x → x ≠ obj → t.parent m' x = t.parent m x
  lists : ∀ p xs, Numbered n p → t.Children m p xs → t.Children m' p (xs.filter (· ≠ obj))

theorem Unlinked.clear (h : t.Unlinked n obj m m') (hobj : Numbered n obj) :
    ∃ m'', (do t.setRelation obj .parent 0; t.setRelation obj .sibling 0) m' = .ok () m'' ∧
      t.Removed n obj m m'' ∧ t.sibling m'' obj = .ok 0 := by
  obtain ⟨m₁, hset, ha⟩ := setRelation_ok (r := .parent) (v := 0) h.holds hobj (UInt16.zero_le)
  obtain ⟨m₂, hset', hb⟩ := setRelation_ok (r := .sibling) (v := 0) ha.holds hobj (UInt16.zero_le)
  refine ⟨m₂, (bind_ok _ hset).trans hset', ⟨hb.holds, ?_, ?_, ?_⟩, hb.here⟩
  · exact (hb.other hobj (by simp)).trans ha.here
  · intro x hx hne
    calc t.parent m₂ x = t.parent m₁ x := hb.other hx (by simp)
      _ = t.parent m' x := ha.other hx (by simp [hne])
      _ = t.parent m x := h.parents x hx
  · intro p xs hp hxs
    have h₁ := ha.children h.holds hp (by simp) (by simp) (h.lists p xs hp hxs)
    exact hb.children ha.holds hp (by simp) (by simp) h₁

theorem Removed.consistent (h : t.Removed n obj m m') (hm : t.Consistent n m) : t.Consistent n m' := by
  refine ⟨h.holds, fun p hp => ?_⟩
  obtain ⟨xs, hxs, hnd, hmem⟩ := hm.children p hp
  refine ⟨_, h.lists p xs hp hxs, hnd.filter _, fun x => ?_⟩
  rw [List.mem_filter, hmem]
  by_cases hx : x = obj
  · subst hx
    have hzero : t.parent m' x ≠ .ok p := by
      rw [h.parent]
      simpa using hp.1.symm
    simp [IsChild, hzero]
  · simp [isChild_congr h.parents hx, hx]

theorem Consistent.remove_ok (h : t.Consistent n m) (hobj : Numbered n obj) :
    ∃ m', t.remove obj m = .ok () m' ∧ t.Removed n obj m m' ∧
      (t.parent m obj ≠ .ok 0 → t.sibling m' obj = .ok 0) := by
  obtain ⟨p, hparent, hpn⟩ := h.holds.relation_ok hobj .parent
  rw [remove, bind_ok _ (reading_ok (f := (t.parent · obj)) hparent)]
  by_cases hp0 : p = 0
  · subst hp0
    refine ⟨m, rfl, ⟨h.holds, hparent, fun _ _ _ => rfl, ?_⟩, fun hne => absurd hparent hne⟩
    intro q xs hq hxs
    rwa [filter_ne_eq_self (h.not_mem hq hxs hparent hq.1)]
  · have hp : Numbered n p := ⟨hp0, hpn⟩
    obtain ⟨s, hs, -⟩ := h.holds.relation_ok hobj .sibling
    obtain ⟨first, hfirst, -⟩ := h.holds.relation_ok hp .child
    rw [if_neg hp0, bind_ok _ (reading_ok (f := (t.sibling · obj)) hs),
      bind_ok _ (reading_ok (f := (t.child · p)) hfirst)]
    by_cases hf : first = obj
    · subst hf
      obtain ⟨m₁, hset, hu⟩ := unlink_first h hobj hp hparent hs hfirst
      obtain ⟨m₂, hclear, hr, hs₂⟩ := hu.clear hobj
      rw [if_pos rfl, bind_ok _ hset]
      exact ⟨m₂, hclear, hr, fun _ => hs₂⟩
    · obtain ⟨e, m₁, helder, hset, hu⟩ := unlink_later h hobj hp hparent hs hfirst hf
      obtain ⟨m₂, hclear, hr, hs₂⟩ := hu.clear hobj
      rw [if_neg hf, bind_ok _ (reading_ok (f := (t.elderSibling · p obj 65535 first)) helder),
        bind_ok _ hset]
      exact ⟨m₂, hclear, hr, fun _ => hs₂⟩

structure Adopted (t : ObjectTable) (n obj dest : UInt16) (m m' : Memory) : Prop where
  holds : t.Holds n m'
  parent : t.parent m' obj = .ok dest
  parents : ∀ x, Numbered n x → x ≠ obj → t.parent m' x = t.parent m x
  list : ∀ xs, t.Children m dest xs → t.Children m' dest (obj :: xs)
  lists : ∀ p xs, Numbered n p → p ≠ dest → t.Children m p xs → t.Children m' p xs

theorem Consistent.adopt_ok {first : UInt16} (h : t.Consistent n m) (hobj : Numbered n obj)
    (hdest : Numbered n dest) (hparent : t.parent m obj = .ok 0) (hfirst : t.child m dest = .ok first) :
    ∃ m', (do t.setRelation obj .sibling first; t.setRelation obj .parent dest
              t.setRelation dest .child obj) m = .ok () m' ∧ t.Adopted n obj dest m m' := by
  have hle := h.holds.closed dest .child first hdest hfirst
  obtain ⟨m₁, hset₁, h₁⟩ := setRelation_ok (r := .sibling) h.holds hobj hle
  obtain ⟨m₂, hset₂, h₂⟩ := setRelation_ok (r := .parent) h₁.holds hobj hdest.2
  obtain ⟨m₃, hset₃, h₃⟩ := setRelation_ok (r := .child) h₂.holds hdest hobj.2
  refine ⟨m₃, ?_, h₃.holds, ?_, ?_, ?_, ?_⟩
  · rw [bind_ok _ hset₁, bind_ok _ hset₂, hset₃]
  · exact (h₃.other hobj (by simp)).trans h₂.here
  · intro x hx hne
    calc t.parent m₃ x = t.parent m₂ x := h₃.other hx (by simp)
      _ = t.parent m₁ x := h₂.other hx (by simp [hne])
      _ = t.parent m x := h₁.other hx (by simp)
  · intro xs hxs
    have hn := hxs.numbered h.holds hdest
    have hout : obj ∉ xs := h.not_mem hdest hxs hparent hdest.1
    obtain ⟨first', hf, hfol⟩ := hxs
    rw [hfirst] at hf
    cases hf
    have hfol₁ := h₁.follows hn (by simp [hout]) hfol
    have hfol₂ : t.Follows m₂ obj (obj :: xs) := by
      refine ⟨rfl, first, ?_, h₂.follows hn (by simp) hfol₁⟩
      exact (h₂.other hobj (by simp)).trans h₁.here
    refine ⟨obj, h₃.here, h₃.follows ?_ (by simp) hfol₂⟩
    intro y hy
    obtain rfl | hy := List.mem_cons.1 hy
    · exact hobj
    · exact hn y hy
  · intro p xs hp hne hxs
    have hout : obj ∉ xs := h.not_mem hp hxs hparent hp.1
    have hxs₁ := h₁.children h.holds hp (by simp) (by simp [hout]) hxs
    have hxs₂ := h₂.children h₁.holds hp (by simp) (by simp) hxs₁
    exact h₃.children h₂.holds hp (by simp [hne]) (by simp) hxs₂

theorem Adopted.consistent (h : t.Adopted n obj dest m m') (hm : t.Consistent n m) (hobj : Numbered n obj)
    (hparent : t.parent m obj = .ok 0) : t.Consistent n m' := by
  refine ⟨h.holds, fun p hp => ?_⟩
  obtain ⟨xs, hxs, hnd, hmem⟩ := hm.children p hp
  have hout : obj ∉ xs := hm.not_mem hp hxs hparent hp.1
  have hother : ∀ x, x ≠ obj → (x ∈ xs ↔ t.IsChild n m' x p) := by
    intro x hx
    rw [hmem, isChild_congr h.parents hx]
  by_cases hpd : p = dest
  · subst hpd
    refine ⟨obj :: xs, h.list xs hxs, List.nodup_cons.2 ⟨hout, hnd⟩, fun x => ?_⟩
    by_cases hx : x = obj
    · subst hx
      simp [IsChild, hobj, h.parent]
    · rw [List.mem_cons, or_iff_right hx]
      exact hother x hx
  · refine ⟨xs, h.lists p xs hp hpd hxs, hnd, fun x => ?_⟩
    by_cases hx : x = obj
    · subst hx
      have hne : t.parent m' x ≠ .ok p := by
        rw [h.parent]
        simpa using Ne.symm hpd
      simp [IsChild, hout, hne]
    · exact hother x hx

/-- The tree with `obj` moved to the front of the children of `dest`. -/
structure Inserted (t : ObjectTable) (n obj dest : UInt16) (m m' : Memory) : Prop where
  parent : t.parent m' obj = .ok dest
  parents : ∀ x, Numbered n x → x ≠ obj → t.parent m' x = t.parent m x
  list : ∀ xs, t.Children m dest xs → t.Children m' dest (obj :: xs.filter (· ≠ obj))
  lists : ∀ p xs, Numbered n p → p ≠ dest → t.Children m p xs → t.Children m' p (xs.filter (· ≠ obj))

theorem Consistent.insert_ok (h : t.Consistent n m) (hobj : Numbered n obj) (hdest : Numbered n dest)
    (hne : obj ≠ dest) :
    ∃ m', t.insert obj dest m = .ok () m' ∧ t.Consistent n m' ∧ t.Inserted n obj dest m m' := by
  obtain ⟨m₁, hremove, hr, -⟩ := h.remove_ok hobj
  have hm₁ := hr.consistent h
  obtain ⟨first, hfirst, -⟩ := hr.holds.relation_ok hdest .child
  obtain ⟨m₂, hadopt, ha⟩ := hm₁.adopt_ok hobj hdest hr.parent hfirst
  refine ⟨m₂, ?_, ha.consistent hm₁ hobj hr.parent, ha.parent, ?_, ?_, ?_⟩
  · have hentry : Action.reading (fun _ => t.entry dest) m = .ok _ m :=
      reading_ok (h.holds.entry_eq hdest)
    rw [insert, if_neg hne]
    dsimp only
    rw [bind_ok _ hentry, bind_ok _ hremove, bind_ok _ (reading_ok (f := (t.child · dest)) hfirst)]
    exact hadopt
  · intro x hx hxo
    exact (ha.parents x hx hxo).trans (hr.parents x hx hxo)
  · intro xs hxs
    exact ha.list _ (hr.lists dest xs hdest hxs)
  · intro p xs hp hpd hxs
    exact ha.lists p _ hp hpd (hr.lists p xs hp hxs)

/-- Parents lead from `x` to `p` in one step or more. -/
def Descends (t : ObjectTable) (n : UInt16) (m : Memory) : UInt16 → UInt16 → Prop :=
  Relation.TransGen (t.IsChild n m)

def Acyclic (t : ObjectTable) (n : UInt16) (m : Memory) : Prop := ∀ x, ¬ t.Descends n m x x

namespace Inserted

variable {x y : UInt16}

theorem isChild_iff (h : t.Inserted n obj dest m m') (hobj : Numbered n obj) :
    t.IsChild n m' x y ↔ x = obj ∧ y = dest ∨ x ≠ obj ∧ t.IsChild n m x y := by
  by_cases hx : x = obj
  · subst hx
    simp [IsChild, hobj, h.parent, eq_comm]
  · simp [isChild_congr h.parents hx, hx]

theorem descends_cases (h : t.Inserted n obj dest m m') (hobj : Numbered n obj) (hd : t.Descends n m' x y) :
    t.Descends n m x y ∨ (x = obj ∨ t.Descends n m x obj) ∧ (y = dest ∨ t.Descends n m dest y) := by
  induction hd with
  | single hxy =>
    obtain ⟨rfl, rfl⟩ | ⟨-, hold⟩ := (h.isChild_iff hobj).1 hxy
    · exact .inr ⟨.inl rfl, .inl rfl⟩
    · exact .inl (.single hold)
  | tail _ hyz ih =>
    obtain ⟨rfl, rfl⟩ | ⟨-, hold⟩ := (h.isChild_iff hobj).1 hyz
    · obtain hxy | ⟨hx, -⟩ := ih
      · exact .inr ⟨.inr hxy, .inl rfl⟩
      · exact .inr ⟨hx, .inl rfl⟩
    · obtain hxy | ⟨hx, rfl | hy⟩ := ih
      · exact .inl (hxy.tail hold)
      · exact .inr ⟨hx, .inr (.single hold)⟩
      · exact .inr ⟨hx, .inr (hy.tail hold)⟩

theorem descends_of_descends (h : t.Inserted n obj dest m m') (hobj : Numbered n obj)
    (hd : t.Descends n m x obj) (hx : x ≠ obj) : t.Descends n m' x obj := by
  induction hd using Relation.TransGen.head_induction_on with
  | single hxo => exact .single ((h.isChild_iff hobj).2 (.inr ⟨hx, hxo⟩))
  | @head x y hxy _ ih =>
    have hxy' : t.IsChild n m' x y := (h.isChild_iff hobj).2 (.inr ⟨hx, hxy⟩)
    by_cases hy : y = obj
    · subst hy
      exact .single hxy'
    · exact .head hxy' (ih hy)

theorem acyclic_iff (h : t.Inserted n obj dest m m') (hobj : Numbered n obj) (hne : obj ≠ dest)
    (hm : t.Acyclic n m) : t.Acyclic n m' ↔ ¬ t.Descends n m dest obj := by
  constructor
  · intro hm' hd
    have hlink : t.IsChild n m' obj dest := (h.isChild_iff hobj).2 (.inl ⟨rfl, rfl⟩)
    exact hm' obj (.head hlink (h.descends_of_descends hobj hd hne.symm))
  · intro hd x hx
    obtain hx | ⟨rfl | hxo, rfl | hdx⟩ := h.descends_cases hobj hx
    · exact hm x hx
    · exact hne rfl
    · exact hd hdx
    · exact hd hxo
    · exact hd (hdx.trans hxo)

end Inserted

/-- Both operations succeed on a consistent tree and keep it consistent. Only the lists that lose
or gain the object change, and an insertion closes a cycle only below the object itself. -/
theorem relink_keeps_tree (h : t.Consistent n m) (hobj : Numbered n obj) (hdest : Numbered n dest)
    (hne : obj ≠ dest) :
    (∃ m', t.remove obj m = .ok () m' ∧ t.Consistent n m' ∧
      t.parent m' obj = .ok 0 ∧ (t.parent m obj ≠ .ok 0 → t.sibling m' obj = .ok 0) ∧
      (∀ p xs, Numbered n p → t.parent m obj = .ok p → t.Children m p xs →
        t.Children m' p (xs.filter (· ≠ obj))) ∧
      (∀ p xs, Numbered n p → t.parent m obj ≠ .ok p → t.Children m p xs → t.Children m' p xs) ∧
      ∀ x, Numbered n x → x ≠ obj → t.parent m' x = t.parent m x) ∧
    ∃ m', t.insert obj dest m = .ok () m' ∧ t.Consistent n m' ∧
      t.parent m' obj = .ok dest ∧
      (∀ xs, t.Children m dest xs → t.Children m' dest (obj :: xs.filter (· ≠ obj))) ∧
      (∀ p xs, Numbered n p → t.parent m obj = .ok p → p ≠ dest → t.Children m p xs →
        t.Children m' p (xs.filter (· ≠ obj))) ∧
      (∀ p xs, Numbered n p → t.parent m obj ≠ .ok p → p ≠ dest → t.Children m p xs →
        t.Children m' p xs) ∧
      (∀ x, Numbered n x → x ≠ obj → t.parent m' x = t.parent m x) ∧
      (t.Acyclic n m → (t.Acyclic n m' ↔ ¬ t.Descends n m dest obj)) := by
  have hsame : ∀ p xs, Numbered n p → t.parent m obj ≠ .ok p → t.Children m p xs →
      xs.filter (· ≠ obj) = xs := by
    intro p xs hp hparent hxs
    apply filter_ne_eq_self
    intro hmem
    exact hparent ((h.mem_iff hp hxs).1 hmem).2
  constructor
  · obtain ⟨m', hremove, hr, hs⟩ := h.remove_ok hobj
    refine ⟨m', hremove, hr.consistent h, hr.parent, hs, fun p xs hp _ => hr.lists p xs hp, ?_, hr.parents⟩
    intro p xs hp hparent hxs
    have hlist := hr.lists p xs hp hxs
    rwa [hsame p xs hp hparent hxs] at hlist
  · obtain ⟨m', hinsert, hm', hi⟩ := h.insert_ok hobj hdest hne
    refine ⟨m', hinsert, hm', hi.parent, hi.list, fun p xs hp _ hpd => hi.lists p xs hp hpd, ?_, hi.parents,
      hi.acyclic_iff hobj hne⟩
    intro p xs hp hparent hpd hxs
    have hlist := hi.lists p xs hp hpd hxs
    rwa [hsame p xs hp hparent hxs] at hlist

def smallWorld : Memory :=
  -- Object 1 with the children 2, 3 and 4, and object 5 apart, in entries from 64.
  ⟨Array.replicate 64 0 ++ #[0, 0, 0, 0, 0, 0, 2, 0, 0, 0, 0, 0, 0, 1, 3, 0, 0, 0, 0, 0, 0, 0, 1, 4, 0, 0, 0,
    0, 0, 0, 0, 1, 0, 0, 0, 0, 0, 0, 0, 0, 0, 0, 0, 0, 0], by simp, by simp⟩

def smallTable : ObjectTable := ⟨2, 3⟩

def smallLinks : Relation → UInt16 → UInt16
  | .parent, x => if x = 2 ∨ x = 3 ∨ x = 4 then 1 else 0
  | .sibling, x => if x = 2 then 3 else if x = 3 then 4 else 0
  | .child, x => if x = 1 then 2 else 0

theorem numbered_five {x : UInt16} (h : Numbered 5 x) : x = 1 ∨ x = 2 ∨ x = 3 ∨ x = 4 ∨ x = 5 := by
  have hx := h.toNat
  simp only [UInt16.reduceToNat] at hx
  simp only [← UInt16.toNat_inj, UInt16.reduceToNat]
  omega

theorem relation_smallWorld {x : UInt16} (hx : Numbered 5 x) (r : Relation) :
    smallTable.relation smallWorld x r = .ok (smallLinks r x) := by
  obtain rfl | rfl | rfl | rfl | rfl := numbered_five hx <;> cases r <;> rfl

theorem children_smallWorld : smallTable.Children smallWorld 1 [2, 3, 4] :=
  ⟨2, rfl, rfl, 3, rfl, rfl, 4, rfl, rfl, 0, rfl, rfl⟩

theorem consistent_smallWorld : smallTable.Consistent 5 smallWorld := by
  refine ⟨⟨by decide, ?_, ?_⟩, ?_⟩
  · intro obj a hobj ha
    obtain rfl | rfl | rfl | rfl | rfl := numbered_five hobj <;> cases ha <;> decide
  · intro obj r v hobj hv
    rw [relation_smallWorld hobj] at hv
    cases hv
    obtain rfl | rfl | rfl | rfl | rfl := numbered_five hobj <;> cases r <;> decide
  · intro p hp
    have hmem (x : UInt16) : smallTable.IsChild 5 smallWorld x p ↔
        Numbered 5 x ∧ smallLinks .parent x = p := by
      refine and_congr_right fun hx => ?_
      rw [parent, relation_smallWorld hx, Except.ok.injEq]
    simp only [hmem, smallLinks]
    by_cases hp1 : p = 1
    · subst hp1
      refine ⟨[2, 3, 4], children_smallWorld, by decide, fun x => ?_⟩
      constructor
      · intro hx
        simp only [List.mem_cons, List.not_mem_nil, or_false] at hx
        obtain rfl | rfl | rfl := hx <;> decide
      · rintro ⟨-, hx⟩
        by_cases hx' : x = 2 ∨ x = 3 ∨ x = 4
        · simpa using hx'
        · simp [hx'] at hx
    · refine ⟨[], ⟨0, ?_, rfl⟩, List.nodup_nil, fun x => ?_⟩
      · rw [child, relation_smallWorld hp, smallLinks, if_neg hp1]
      · have hne : ¬ (if x = 2 ∨ x = 3 ∨ x = 4 then 1 else 0) = p := by
          split
          · exact Ne.symm hp1
          · exact Ne.symm hp.1
        simp [hne]

theorem lt_of_descends_smallWorld {x y : UInt16} (h : smallTable.Descends 5 smallWorld x y) : y < x := by
  have hstep {x y : UInt16} (hxy : smallTable.IsChild 5 smallWorld x y) : y < x := by
    obtain ⟨hx, hparent⟩ := hxy
    rw [parent, relation_smallWorld hx] at hparent
    cases hparent
    obtain rfl | rfl | rfl | rfl | rfl := numbered_five hx <;> decide
  induction h with
  | single hxy => exact hstep hxy
  | tail _ hyz ih => exact UInt16.lt_trans (hstep hyz) ih

theorem relink_keeps_smallWorld :
    smallTable.Consistent 5 smallWorld ∧ smallTable.Acyclic 5 smallWorld ∧
      smallTable.Children smallWorld 1 [2, 3, 4] ∧
      ∃ m', smallTable.insert 3 2 smallWorld = .ok () m' ∧ smallTable.Consistent 5 m' ∧
        smallTable.Acyclic 5 m' ∧ smallTable.Children m' 2 [3] ∧ smallTable.Children m' 1 [2, 4] := by
  have h₁ : Numbered 5 1 := by decide
  have h₂ : Numbered 5 2 := by decide
  have h₃ : Numbered 5 3 := by decide
  have hacyclic : smallTable.Acyclic 5 smallWorld := fun x hx => UInt16.lt_irrefl x (lt_of_descends_smallWorld hx)
  have hapart : ¬ smallTable.Descends 5 smallWorld 2 3 := by
    intro hd
    exact absurd (lt_of_descends_smallWorld hd) (by decide)
  obtain ⟨-, m', hinsert, hm', -, hlist, hold, -, -, hcycle⟩ :=
    relink_keeps_tree consistent_smallWorld h₃ h₂ (by decide)
  refine ⟨consistent_smallWorld, hacyclic, children_smallWorld, m', hinsert, hm', ?_, ?_, ?_⟩
  · exact (hcycle hacyclic).2 hapart
  · exact hlist [] ⟨0, rfl, rfl⟩
  · exact hold 1 _ h₁ rfl (by decide) children_smallWorld

end ZMachine.ObjectTable
