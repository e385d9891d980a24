import ZMachine.Proofs.Machine.ParseBuffer

namespace ZMachine

def JoinsAt (seps text : List UInt8) (j : Nat) : Prop := ∃ b, text[j]? = some b ∧ joins seps b

def VisibleAt (text : List UInt8) (j : Nat) : Prop := ∃ b, text[j]? = some b ∧ b ≠ 32

/-- A word by where it starts and how long it is: a separator, or all of the bytes that follow each
other without a space or a separator. -/
inductive IsWord (seps text : List UInt8) : Nat × Nat → Prop
  | separator {s : Nat} {b : UInt8} (here : text[s]? = some b) (visible : b ≠ 32) (listed : b ∈ seps) :
    IsWord seps text (s, 1)
  | run {s l : Nat} (pos : 0 < l) (all : ∀ j, s ≤ j → j < s + l → JoinsAt seps text j)
    (front : ∀ j, j + 1 = s → ¬ JoinsAt seps text j) (back : ¬ JoinsAt seps text (s + l)) :
    IsWord seps text (s, l)

/-- These are the words of a text from `k` on. -/
structure Splits (seps text : List UInt8) (k : Nat) (words : List (Nat × Nat)) : Prop where
  inside : ∀ p ∈ words, k ≤ p.1 ∧ 0 < p.2 ∧ p.1 + p.2 ≤ text.length
  ordered : words.Pairwise fun p q => p.1 + p.2 ≤ q.1
  covers : ∀ j, k ≤ j → ((∃ p ∈ words, p.1 ≤ j ∧ j < p.1 + p.2) ↔ VisibleAt text j)
  kinds : ∀ p ∈ words, IsWord seps text p

section Intervals

variable {seps text rest : List UInt8} {words : List (Nat × Nat)} {b : UInt8} {i j k l s run : Nat}

theorem joinsAt_iff (here : text[j]? = some b) : JoinsAt seps text j ↔ ¬ (b = 32 ∨ b ∈ seps) := by
  simp [JoinsAt, here, joins]

theorem JoinsAt.visible (h : JoinsAt seps text j) : VisibleAt text j := by
  obtain ⟨b, here, hb⟩ := h
  simp only [joins, decide_eq_true_eq] at hb
  exact ⟨b, here, hb.1⟩

theorem VisibleAt.lt (h : VisibleAt text j) : j < text.length := by
  obtain ⟨b, here, -⟩ := h
  exact (List.getElem?_eq_some_iff.1 here).1

theorem IsWord.visible {p : Nat × Nat} (h : IsWord seps text p) (hj : p.1 ≤ j) (hj' : j < p.1 + p.2) :
    VisibleAt text j := by
  cases h with
  | @separator s b here visible _ =>
    obtain rfl : j = s := by
      dsimp only at hj hj'
      omega
    exact ⟨b, here, visible⟩
  | run _ all => exact (all j hj hj').visible

theorem IsWord.inside {p : Nat × Nat} (h : IsWord seps text p) :
    0 < p.2 ∧ p.1 + p.2 ≤ text.length := by
  have hpos : 0 < p.2 := by
    cases h with
    | separator => exact Nat.one_pos
    | run pos => exact pos
  have hlast := (h.visible (j := p.1 + p.2 - 1) (by omega) (by omega)).lt
  omega

namespace Splits

theorem nil (h : text.length ≤ k) : Splits seps text k [] where
  inside := by simp
  ordered := .nil
  covers j hj := by
    constructor
    · rintro ⟨p, hp, -⟩
      cases hp
    · intro hvisible
      have := hvisible.lt
      omega
  kinds := by simp

theorem space (here : text[k]? = some 32) (h : Splits seps text (k + 1) words) :
    Splits seps text k words where
  inside p hp := by
    have := h.inside p hp
    omega
  ordered := h.ordered
  covers j hj := by
    obtain rfl | hlater := Nat.eq_or_lt_of_le hj
    · constructor
      · rintro ⟨p, hp, hle, -⟩
        have := h.inside p hp
        omega
      · rintro ⟨b, hb, hne⟩
        exact absurd (Option.some.inj (hb.symm.trans here)) hne
    · exact h.covers j hlater
  kinds := h.kinds

theorem cons (hword : IsWord seps text (k, l)) (h : Splits seps text (k + l) words) :
    Splits seps text k ((k, l) :: words) where
  inside := by
    rw [List.forall_mem_cons]
    refine ⟨⟨Nat.le_refl k, hword.inside⟩, fun p hp => ?_⟩
    have := h.inside p hp
    omega
  ordered := by
    rw [List.pairwise_cons]
    exact ⟨fun p hp => (h.inside p hp).1, h.ordered⟩
  covers j hj := by
    simp only [List.mem_cons, exists_eq_or_imp]
    by_cases hin : j < k + l
    · constructor
      · intro _
        exact hword.visible hj hin
      · intro _
        exact .inl ⟨hj, hin⟩
    · rw [← h.covers j (by omega)]
      constructor
      · rintro (⟨-, hlt⟩ | hlater)
        · exact absurd hlt hin
        · exact hlater
      · exact .inr
  kinds := by
    rw [List.forall_mem_cons]
    exact ⟨hword, h.kinds⟩

end Splits

structure Pending (seps text : List UInt8) (s run : Nat) : Prop where
  all : ∀ j, s ≤ j → j < s + run → JoinsAt seps text j
  front : ∀ j, j + 1 = s → ¬ JoinsAt seps text j

namespace Pending

theorem none (h : ¬ JoinsAt seps text s) : Pending seps text (s + 1) 0 where
  all j hj hj' := by omega
  front j hj := by
    obtain rfl := Nat.succ.inj hj
    exact h

theorem more (h : Pending seps text s run) (hb : JoinsAt seps text (s + run)) :
    Pending seps text s (run + 1) where
  all j hj hj' := by
    obtain rfl | hlt : j = s + run ∨ j < s + run := by omega
    · exact hb
    · exact h.all j hj hlt
  front := h.front

theorem finish (h : Pending seps text s run) (hend : ¬ JoinsAt seps text (s + run))
    (hwords : Splits seps text (s + run) words) :
    Splits seps text s ((if run = 0 then [] else [(s + run - run, run)]) ++ words) := by
  by_cases hrun : run = 0
  · subst hrun
    exact hwords
  · rw [if_neg hrun, Nat.add_sub_cancel]
    exact .cons (.run (Nat.pos_of_ne_zero hrun) h.all h.front hend) hwords

end Pending

theorem wordsFrom_splits (h : Pending seps text s run) (hrest : text.drop (s + run) = rest) :
    Splits seps text s (wordsFrom seps (s + run) run rest) := by
  induction rest generalizing s run with
  | nil =>
    have hlen : text.length ≤ s + run := List.drop_eq_nil_iff.1 hrest
    have hend : ¬ JoinsAt seps text (s + run) := fun hb => by
      have := hb.visible.lt
      omega
    have hsplits := h.finish hend (.nil hlen)
    rw [List.append_nil] at hsplits
    exact hsplits
  | cons b rest ih =>
    have here : text[s + run]? = some b := by
      rw [← List.head?_drop, hrest]
      rfl
    have hrest' : text.drop (s + run + 1) = rest := by
      rw [← List.tail_drop, hrest]
      rfl
    rw [wordsFrom]
    by_cases hstop : b = 32 ∨ b ∈ seps
    · have hend : ¬ JoinsAt seps text (s + run) := by
        rw [joinsAt_iff here]
        exact not_not_intro hstop
      have hlater := ih (.none hend) hrest'
      rw [if_pos hstop, List.append_assoc]
      apply h.finish hend
      -- a space ends a word and is none itself, even where it is listed among the separators
      by_cases hspace : b = 32
      · subst hspace
        exact .space here hlater
      · rw [if_neg hspace]
        exact .cons (.separator here hspace (hstop.resolve_left hspace)) hlater
    · have hb : JoinsAt seps text (s + run) := (joinsAt_iff here).2 hstop
      rw [if_neg hstop]
      exact ih (h.more hb) hrest'

theorem splitWords_splits (seps text : List UInt8) : Splits seps text 0 (splitWords text seps) := by
  have hnone : Pending seps text 0 0 := ⟨fun j hj hj' => by omega, fun j hj => by omega⟩
  exact wordsFrom_splits hnone rfl

end Intervals

namespace Machine

open Memory (ChangesAt ChangesWithin)

theorem tokenise_without_separators {version : UInt8} {buffer parse : Nat} {countOnly : Bool} {m : Memory}
    {text : List UInt8} {e : Fault} (htext : bufferText version m buffer = .ok text)
    (hseps : separators m = .error e) : tokenise version buffer parse countOnly m = .error e m := by
  rw [tokenise, bind_ok _ (reading_ok (f := fun m => bufferText version m buffer) htext),
    bind_error _ (reading_error hseps)]

/-- A text splits into its words; as many as a parse buffer takes are counted there, and entered
unless only the count is asked for. -/
theorem words_split_and_entered (seps text : List UInt8) :
    Splits seps text 0 (splitWords text seps) ∧
      ∀ (version c : UInt8) (buffer parse : Nat) (countOnly : Bool) (m : Memory),
        bufferText version m buffer = .ok text → m.byte parse = .ok c →
        parse + 2 + 4 * c.toNat ≤ m.size →
        (∀ e, separators m = .error e → tokenise version buffer parse countOnly m = .error e m) ∧
        (separators m = .ok seps →
          ∃ n count, tokenise version buffer parse countOnly m = .ok () n ∧
            n.byte (parse + 1) = .ok count ∧
            count.toNat = min (splitWords text seps).length c.toNat ∧
            ChangesWithin (fun x => x = parse + 1 ∨
              countOnly = false ∧ parse + 2 ≤ x ∧ x < parse + 2 + 4 * count.toNat) m n) := by
  refine ⟨splitWords_splits seps text, ?_⟩
  intro version c buffer parse countOnly m htext hc room
  refine ⟨fun e hseps => tokenise_without_separators htext hseps, fun hseps => ?_⟩
  generalize hwords : (splitWords text seps).take c.toNat = words
  have hlen : words.length = min (splitWords text seps).length c.toNat := by
    rw [← hwords, List.length_take, Nat.min_comm]
  have hcount : (UInt8.ofNat words.length).toNat = words.length := by
    have := c.toNat_lt
    exact UInt8.toNat_ofNat_of_lt' (show _ < 256 by omega)
  have hkept : (if countOnly then [] else words).length ≤ words.length := by
    split <;> simp
  rw [Memory.size] at room
  obtain ⟨n, hrun, hchanges, hbyte, -⟩ := tokenise_enters countOnly htext hseps hc hwords
    rfl (by omega)
  refine ⟨n, _, hrun, hbyte, by rw [hcount, hlen], hchanges.within fun x hx hx' => ?_⟩
  rw [hcount]
  cases countOnly with
  | true =>
    simp only [↓reduceIte, List.length_nil] at hx'
    omega
  | false =>
    simp only [Bool.false_eq_true, ↓reduceIte] at hx'
    obtain rfl | hlater := Nat.eq_or_lt_of_le hx
    · exact .inl rfl
    · exact .inr ⟨rfl, hlater, by omega⟩

def crampedStory : Memory :=
  -- The text `ab, cd` in a story that lists the space with the comma, and a parse buffer for two of
  -- its three words.
  ⟨⟨5 :: (List.replicate 8 0 ++ 60 :: List.replicate 50 0) ++ [2, 44, 32, 0] ++
    [255, 6, 97, 98, 44, 32, 99, 100] ++ 2 :: List.replicate 9 0⟩, by simp, by simp⟩

theorem words_split_and_entered_cramped :
    splitWords [97, 98, 44, 32, 99, 100] [44, 32] = [(0, 2), (2, 1), (4, 2)] ∧
      Splits [44, 32] [97, 98, 44, 32, 99, 100] 0 [(0, 2), (2, 1), (4, 2)] ∧
      ∃ n count, tokenise 5 64 72 false crampedStory = .ok () n ∧ n.byte 73 = .ok count ∧
        count.toNat = 2 ∧ ChangesWithin (fun x => 73 ≤ x ∧ x < 82) crampedStory n := by
  have htext : bufferText 5 crampedStory 64 = .ok [97, 98, 44, 32, 99, 100] := by
    apply ok_of_toOption
    decide +kernel
  have hseps : separators crampedStory = .ok [44, 32] := by
    apply ok_of_toOption
    decide +kernel
  have hwords : splitWords [97, 98, 44, 32, 99, 100] [44, 32] = [(0, 2), (2, 1), (4, 2)] := by decide
  obtain ⟨hsplits, hrun⟩ := words_split_and_entered [44, 32] [97, 98, 44, 32, 99, 100]
  obtain ⟨n, count, htokens, hbyte, hcount, hchanges⟩ := (hrun 5 2 64 72 false crampedStory htext rfl
    (by decide +kernel)).2 hseps
  rw [hwords] at hsplits hcount
  have htwo : count.toNat = 2 := hcount
  refine ⟨hwords, hsplits, n, count, htokens, hbyte, htwo, hchanges.mono fun x hx => ?_⟩
  omega

end Machine

end ZMachine
