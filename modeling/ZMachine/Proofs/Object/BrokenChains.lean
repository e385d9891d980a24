import ZMachine.Proofs.Object.FailedMoves

/-!
Removal from a chain of any kind. The siblings may lead round in a circle, into the children of another
object or out of the image; an object that they lead to at all is found, and for one that they miss the
tree is declared malformed. That the steps suffice is the pigeonhole principle: there are not more than
65535 objects to pass.
-/

namespace ZMachine.ObjectTable

variable {t : ObjectTable} {m m' : Memory} {obj p x first last next : UInt16} {xs ys : List UInt16}
  {e : Fault} {left : Nat}

def Passes (t : ObjectTable) (m : Memory) : UInt16 → List UInt16 → UInt16 → Prop
  | first, [], last => first = last
  | first, x :: xs, last => first = x ∧ ∃ next, t.sibling m x = .ok next ∧ Passes t m next xs last

def ChildrenPass (t : ObjectTable) (m : Memory) (p : UInt16) (xs : List UInt16) (last : UInt16) : Prop :=
  ∃ first, t.child m p = .ok first ∧ t.Passes m first xs last

/-- The chain of the children of `p` ends, or comes back to an object that it has passed, and `obj` is
not on it. -/
def ChildrenMiss (t : ObjectTable) (m : Memory) (p obj : UInt16) : Prop :=
  ∃ xs last, t.ChildrenPass m p xs last ∧ obj ∉ xs ∧ (last = 0 ∨ last ∈ xs)

namespace Passes

theorem split {as : List UInt16} (h : t.Passes m first (as ++ x :: xs) last) : t.Passes m first as x := by
  induction as generalizing first with
  | nil => exact h.1
  | cons a as ih =>
    obtain ⟨rfl, next, hnext, hrest⟩ := h
    exact ⟨rfl, next, hnext, ih hrest⟩

theorem sibling_of_mem (h : t.Passes m first xs last) (hx : x ∈ xs) :
    ∃ next, t.sibling m x = .ok next ∧ (next ∈ xs ∨ next = last) := by
  induction xs generalizing first with
  | nil => cases hx
  | cons y xs ih =>
    obtain ⟨rfl, next, hnext, hxs⟩ := h
    obtain rfl | hx := List.mem_cons.1 hx
    · refine ⟨next, hnext, ?_⟩
      cases xs with
      | nil => exact .inr hxs
      | cons y ys =>
        left
        simp [hxs.1]
    · obtain ⟨next', hnext', hmem⟩ := ih hxs hx
      refine ⟨next', hnext', hmem.imp_left ?_⟩
      exact List.mem_cons_of_mem _

theorem ne_zero_of_mem (h : t.Passes m first xs last) (hx : x ∈ xs) : x ≠ 0 := by
  obtain ⟨next, hnext, -⟩ := h.sibling_of_mem hx
  exact ne_zero_of_sibling hnext

theorem first_mem (h : t.Passes m first xs last) : first ∈ xs ∨ first = last := by
  cases xs with
  | nil => exact .inr h
  | cons x xs => simp [h.1]

theorem mem_of_closed {S : UInt16 → Prop} (hS : ∀ x next, S x → t.sibling m x = .ok next → S next)
    (h : t.Passes m first xs last) (hfirst : S first) : S last := by
  induction xs generalizing first with
  | nil => exact h ▸ hfirst
  | cons x xs ih =>
    obtain ⟨rfl, next, hnext, hxs⟩ := h
    exact ih hxs (hS first next hfirst hnext)

theorem mem_of_stopped (h : t.Passes m first xs last)
    (hstop : last ∈ xs ∨ ∃ e, t.sibling m last = .error e) (hx : t.Passes m first ys x) :
    x ∈ xs ∨ x = last := by
  have hclosed : ∀ y next, y ∈ xs ∨ y = last → t.sibling m y = .ok next → next ∈ xs ∨ next = last := by
    intro y next hy hnext
    have hmem : y ∈ xs := by
      obtain hy | rfl := hy
      · exact hy
      · obtain hlast | ⟨e, he⟩ := hstop
        · exact hlast
        · rw [hnext] at he
          cases he
    obtain ⟨next', hnext', hin⟩ := h.sibling_of_mem hmem
    rw [hnext] at hnext'
    cases hnext'
    exact hin
  exact mem_of_closed hclosed hx h.first_mem

theorem round_of_not_nodup (h : t.Passes m first xs last) (hxs : ¬ xs.Nodup) :
    ∃ ys y, t.Passes m first ys y ∧ y ∈ ys ∧ ys ⊆ xs := by
  induction xs generalizing first with
  | nil => exact absurd List.nodup_nil hxs
  | cons x xs ih =>
    by_cases hx : x ∈ xs
    · obtain ⟨as, bs, rfl⟩ := List.append_of_mem hx
      have hround : t.Passes m first (x :: as ++ x :: bs) last := h
      refine ⟨x :: as, x, hround.split, List.mem_cons_self, ?_⟩
      exact List.cons_subset_cons x (List.subset_append_left as _)
    · obtain ⟨rfl, next, hnext, hrest⟩ := h
      have hnodup : ¬ xs.Nodup := fun hnd => hxs (List.nodup_cons.2 ⟨hx, hnd⟩)
      obtain ⟨ys, y, hys, hy, hsub⟩ := ih hrest hnodup
      refine ⟨first :: ys, y, ⟨rfl, next, hnext, hys⟩, List.mem_cons_of_mem _ hy, ?_⟩
      exact List.cons_subset_cons first hsub

theorem round_of_length (h : t.Passes m first xs last) (hobj : obj ≠ 0) (hmiss : obj ∉ xs)
    (hlen : xs.length = 65535) : ∃ ys y, t.Passes m first ys y ∧ y ∈ ys ∧ ys ⊆ xs := by
  -- There are 65535 objects, so that a chain of as many steps has met a given one, or goes round.
  apply h.round_of_not_nodup
  intro hnodup
  have hnumbered : ∀ y ∈ obj :: xs, Numbered 65535 y := by
    intro y hy
    refine ⟨?_, UInt16.le_iff_toNat_le.2 (Nat.le_of_lt_succ y.toNat_lt)⟩
    obtain rfl | hy := List.mem_cons.1 hy
    · exact hobj
    · exact h.ne_zero_of_mem hy
  have hle := length_le_of_nodup (List.nodup_cons.2 ⟨hmiss, hnodup⟩) hnumbered
  rw [List.length_cons] at hle
  omega

end Passes

theorem passes_of_elderSibling {elder : UInt16} (h : t.elderSibling m p obj left first = .ok elder) :
    ∃ xs, t.Passes m first xs obj := by
  induction left generalizing first with
  | zero => cases h
  | succ left ih =>
    rw [elderSibling] at h
    split at h
    · cases h
    · obtain ⟨next, hnext, h⟩ := ok_of_bind_except h
      split at h
      · next heq => exact ⟨[first], rfl, next, hnext, heq⟩
      · obtain ⟨xs, hxs⟩ := ih h
        exact ⟨first :: xs, rfl, next, hnext, hxs⟩

theorem elderSibling_error (hfirst : first ≠ obj) (h : t.elderSibling m p obj left first = .error e) :
    ∃ xs last, t.Passes m first xs last ∧ obj ∉ xs ∧ last ≠ obj ∧
      (e = .malformedTree (.notAChild obj p) ∧ (last = 0 ∨ xs.length = left) ∨
        last ≠ 0 ∧ t.sibling m last = .error e) := by
  induction left generalizing first with
  | zero =>
    cases h
    exact ⟨[], first, rfl, List.not_mem_nil, hfirst, .inl ⟨rfl, .inr rfl⟩⟩
  | succ left ih =>
    rw [elderSibling] at h
    split at h
    · next hzero =>
      cases h
      exact ⟨[], first, rfl, List.not_mem_nil, hfirst, .inl ⟨rfl, .inl hzero⟩⟩
    · next hzero =>
      obtain hnext | ⟨next, hnext, h⟩ := error_of_bind_except h
      · exact ⟨[], first, rfl, List.not_mem_nil, hfirst, .inr ⟨hzero, hnext⟩⟩
      · split at h
        · cases h
        · next hne =>
          obtain ⟨xs, last, hxs, hmiss, hlast, hwhy⟩ := ih hne h
          refine ⟨first :: xs, last, ⟨rfl, next, hnext, hxs⟩, ?_, hlast, ?_⟩
          · simp [hmiss, Ne.symm hfirst]
          · rw [List.length_cons]
            exact hwhy.imp_left (And.imp_right (Or.imp_right (congrArg (· + 1))))

theorem not_malformed_of_relation {r : Relation} {why : TreeFlaw} :
    t.relation m x r ≠ .error (.malformedTree why) := by
  intro h
  obtain h | ⟨a, -, h⟩ := error_of_bind_except h
  · obtain h | ⟨a, -, ⟨⟩⟩ := error_of_bind_except h
    unfold entry at h
    split at h <;> cases h
  · split at h
    · cases hb : m.byte a with
      | ok b =>
        rw [hb] at h
        cases h
      | error e =>
        rw [hb] at h
        cases h
        unfold Memory.byte Memory.outside at hb
        split at hb
        · cases hb
        · split at hb <;> cases hb
    · unfold Memory.word Memory.outside at h
      split at h
      · cases h
      · split at h <;> cases h

section Removal

variable (hparent : t.parent m obj = .ok p) (hp : p ≠ 0) (hsibling : t.Present m obj .sibling)
include hparent hp hsibling

theorem remove_of_passes (h : t.ChildrenPass m p xs obj) : ∃ m', t.remove obj m = .ok () m' := by
  obtain ⟨first, hfirst, hxs⟩ := h
  obtain ⟨next, hnext⟩ := hsibling.relation
  have hpresent := present_of_relation hparent
  by_cases hf : first = obj
  · subst hf
    rw [remove_of_first hparent hp hnext hfirst]
    obtain ⟨m', hm', -⟩ := detach_ok next (present_of_relation hfirst) hpresent hsibling
    exact ⟨m', hm'⟩
  rw [remove_of_later hparent hp hnext hfirst hf]
  cases helder : t.elderSibling m p obj 65535 first with
  | ok elder =>
    have helder' := present_of_relation (sibling_of_elderSibling helder)
    obtain ⟨m', hm', -⟩ := detach_ok next helder' hpresent hsibling
    rw [bind_ok _ (reading_ok (f := (t.elderSibling · p obj 65535 first)) helder)]
    exact ⟨m', hm'⟩
  | error e =>
    -- wherever the search has stopped, the chain leads nowhere else, and so not to the object
    obtain ⟨ys, last, hys, hmiss, hlast, ⟨-, rfl | hlen⟩ | ⟨-, hstop⟩⟩ := elderSibling_error hf helder
    · have hin := hys.mem_of_stopped (.inr ⟨_, sibling_zero t m⟩) hxs
      exact absurd hin (not_or.2 ⟨hmiss, Ne.symm hlast⟩)
    · obtain ⟨zs, y, hzs, hy, hsub⟩ := hys.round_of_length (ne_zero_of_sibling hnext) hmiss hlen
      obtain hin | rfl := hzs.mem_of_stopped (.inl hy) hxs
      · exact absurd (hsub hin) hmiss
      · exact absurd (hsub hy) hmiss
    · have hin := hys.mem_of_stopped (.inr ⟨e, hstop⟩) hxs
      exact absurd hin (not_or.2 ⟨hmiss, Ne.symm hlast⟩)

theorem remove_of_misses (h : t.ChildrenMiss m p obj) :
    t.remove obj m = .error (.malformedTree (.notAChild obj p)) m := by
  obtain ⟨xs, last, ⟨first, hfirst, hxs⟩, hmiss, hend⟩ := h
  obtain ⟨next, hnext⟩ := hsibling.relation
  have hobj : obj ≠ 0 := ne_zero_of_sibling hnext
  have hstop : last ∈ xs ∨ ∃ e, t.sibling m last = .error e := by
    obtain rfl | hlast := hend
    · exact .inr ⟨_, sibling_zero t m⟩
    · exact .inl hlast
  have hnever : ∀ ys, ¬ t.Passes m first ys obj := by
    intro ys hys
    obtain hin | rfl := hxs.mem_of_stopped hstop hys
    · exact hmiss hin
    · exact hend.elim hobj hmiss
  have hne : first ≠ obj := fun heq => hnever [] heq
  rw [remove_of_later hparent hp hnext hfirst hne]
  cases helder : t.elderSibling m p obj 65535 first with
  | ok elder =>
    obtain ⟨ys, hys⟩ := passes_of_elderSibling helder
    exact absurd hys (hnever ys)
  | error e =>
    rw [bind_error _ (reading_error (f := (t.elderSibling · p obj 65535 first)) helder)]
    obtain ⟨ys, y, hys, -, -, ⟨rfl, -⟩ | ⟨hy, hfail⟩⟩ := elderSibling_error hne helder
    · rfl
    · -- every link of this chain can be read, up to a 0
      have hread : y ∈ xs := by
        obtain hin | rfl := hxs.mem_of_stopped hstop hys
        · exact hin
        · exact hend.resolve_left hy
      obtain ⟨next', hnext', -⟩ := hxs.sibling_of_mem hread
      rw [hfail] at hnext'
      cases hnext'

theorem passes_of_remove (h : t.remove obj m = .ok () m') : ∃ xs, t.ChildrenPass m p xs obj := by
  obtain ⟨next, hnext⟩ := hsibling.relation
  cases hfirst : t.child m p with
  | error e =>
    rw [remove_of_error hparent hp hnext hfirst] at h
    cases h
  | ok first =>
    by_cases hf : first = obj
    · exact ⟨[], first, hfirst, hf⟩
    · rw [remove_of_later hparent hp hnext hfirst hf] at h
      obtain ⟨elder, m₁, helder, -⟩ := ok_of_bind_ok h
      cases hfound : t.elderSibling m p obj 65535 first with
      | ok elder =>
        obtain ⟨xs, hxs⟩ := passes_of_elderSibling hfound
        exact ⟨xs, first, hfirst, hxs⟩
      | error e =>
        rw [reading_error (f := (t.elderSibling · p obj 65535 first)) hfound] at helder
        cases helder

theorem misses_of_remove {why : TreeFlaw} (h : t.remove obj m = .error (.malformedTree why) m') :
    t.ChildrenMiss m p obj := by
  obtain ⟨next, hnext⟩ := hsibling.relation
  have hobj : obj ≠ 0 := ne_zero_of_sibling hnext
  cases hfirst : t.child m p with
  | error e =>
    rw [remove_of_error hparent hp hnext hfirst] at h
    cases h
    exact absurd hfirst not_malformed_of_relation
  | ok first =>
    by_cases hf : first = obj
    · have hpass : t.ChildrenPass m p [] obj := ⟨first, hfirst, hf⟩
      obtain ⟨m₁, hm₁⟩ := remove_of_passes hparent hp hsibling hpass
      rw [hm₁] at h
      cases h
    rw [remove_of_later hparent hp hnext hfirst hf] at h
    cases hfound : t.elderSibling m p obj 65535 first with
    | ok elder =>
      obtain ⟨xs, hxs⟩ := passes_of_elderSibling hfound
      obtain ⟨m₁, hm₁⟩ := remove_of_passes hparent hp hsibling ⟨first, hfirst, hxs⟩
      rw [← remove_of_later hparent hp hnext hfirst hf, hm₁] at h
      cases h
    | error e =>
      rw [bind_error _ (reading_error (f := (t.elderSibling · p obj 65535 first)) hfound)] at h
      cases h
      obtain ⟨xs, last, hxs, hmiss, -, ⟨-, rfl | hlen⟩ | ⟨-, hstop⟩⟩ := elderSibling_error hf hfound
      · exact ⟨xs, 0, ⟨first, hfirst, hxs⟩, hmiss, .inl rfl⟩
      · obtain ⟨ys, y, hys, hy, hsub⟩ := hxs.round_of_length hobj hmiss hlen
        exact ⟨ys, y, ⟨first, hfirst, hys⟩, fun hin => hmiss (hsub hin), .inr hy⟩
      · exact absurd hstop not_malformed_of_relation

end Removal

/-- An object with a parent can be taken out exactly if the children of the parent lead to it. The tree is
declared malformed exactly if they end, or go round, without it; and no failure changes memory. -/
theorem removal_from_any_chain (hparent : t.parent m obj = .ok p) (hp : p ≠ 0)
    (hsibling : t.Present m obj .sibling) :
    ((∃ m', t.remove obj m = .ok () m') ↔ ∃ xs, t.ChildrenPass m p xs obj) ∧
      (t.ChildrenMiss m p obj → t.remove obj m = .error (.malformedTree (.notAChild obj p)) m) ∧
      (∀ why m', t.remove obj m = .error (.malformedTree why) m' → t.ChildrenMiss m p obj) ∧
      ∀ e m', t.remove obj m = .error e m' → m' = m := by
  refine ⟨⟨?_, ?_⟩, remove_of_misses hparent hp hsibling, ?_, ?_⟩
  · rintro ⟨m', h⟩
    exact passes_of_remove hparent hp hsibling h
  · rintro ⟨xs, h⟩
    exact remove_of_passes hparent hp hsibling h
  · intro why m' h
    exact misses_of_remove hparent hp hsibling h
  · intro e m' h
    obtain ⟨f, hr⟩ | ⟨-, hr⟩ | ⟨_, _, -, -, -, hr, -⟩ := remove_cases t obj m
    · rw [hr] at h
      cases h
      rfl
    · rw [hr] at h
      cases h
    · rw [hr] at h
      cases h

def roundWorld : Memory :=
  -- The siblings 2, 3 and 4 go round.
  strayWorld.set 96 2 (by decide)

theorem removal_from_any_chain_round :
    smallTable.ChildrenPass roundWorld 1 [2, 3, 4] 2 ∧
      (∃ m', smallTable.remove 4 roundWorld = .ok () m') ∧
      smallTable.remove 5 roundWorld = .error (.malformedTree (.notAChild 5 1)) roundWorld := by
  have hround : smallTable.ChildrenPass roundWorld 1 [2, 3, 4] 2 :=
    ⟨2, rfl, rfl, 3, rfl, rfl, 4, rfl, rfl, 2, rfl, rfl⟩
  have hfour : smallTable.ChildrenPass roundWorld 1 [2, 3] 4 := ⟨2, rfl, rfl, 3, rfl, rfl, 4, rfl, rfl⟩
  have hinside : smallTable.parent roundWorld 4 = .ok 1 := rfl
  have hoff : smallTable.parent roundWorld 5 = .ok 1 := rfl
  obtain ⟨hfound, -⟩ := removal_from_any_chain hinside (by decide) ⟨96, rfl, by decide⟩
  obtain ⟨-, hmissed, -⟩ := removal_from_any_chain hoff (by decide) ⟨105, rfl, by decide⟩
  exact ⟨hround, hfound.2 ⟨_, hfour⟩, hmissed ⟨_, 2, hround, by decide, .inr (by decide)⟩⟩

end ZMachine.ObjectTable
