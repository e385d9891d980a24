import ZMachine.Instruction.Decode
import ZMachine.Proofs.Text.Packing
import ZMachine.Text.Decode
import ZMachine.Text.Encode

namespace ZMachine

namespace Zscii

variable {c : Char} {code : UInt16}

/-- What is left of a text in ZSCII: characters without a code are lost, and a carriage return is
a new line. -/
def readable (text : List Char) : List Char :=
  (text.filter fun c => (ofChar? c).isSome).map fun c => if c = '\r' then '\n' else c

theorem ofChar?_cases (h : ofChar? c = some code) :
    (c = '\n' ∨ c = '\r') ∧ code.toNat = 13 ∨
      c ≠ '\r' ∧ (32 ≤ c.toNat ∧ c.toNat ≤ 126 ∧ code.toNat = c.toNat ∨
        ∃ i < 69, extras[i]? = some c ∧ code.toNat = 155 + i) := by
  unfold ofChar? at h
  split at h
  · next hc =>
    cases h
    exact .inl ⟨hc, rfl⟩
  · next hc =>
    refine .inr ⟨fun e => hc (.inr e), ?_⟩
    split at h
    · next hascii =>
      cases h
      have hlow : 32 ≤ c.toNat := UInt32.le_iff_toNat_le.1 hascii.1
      have hhigh : c.toNat ≤ 126 := UInt32.le_iff_toNat_le.1 hascii.2
      refine .inl ⟨hlow, hhigh, ?_⟩
      rw [UInt16.toNat_ofNat', Nat.mod_eq_of_lt (by omega)]
    · obtain ⟨i, hi, rfl⟩ := Option.map_eq_some_iff.1 h
      obtain ⟨hlt, hget, -⟩ := List.idxOf?_eq_some_iff.1 hi
      have hi69 : i < 69 := hlt
      refine .inr ⟨i, hi69, List.getElem?_eq_some_iff.2 ⟨hlt, hget⟩, ?_⟩
      rw [UInt16.toNat_ofNat', Nat.mod_eq_of_lt (by omega)]

theorem code_bounds (h : ofChar? c = some code) : code.toNat < 1024 ∧ code ≠ 10 := by
  have hbounds : code.toNat < 1024 ∧ code.toNat ≠ 10 := by
    obtain ⟨-, hcode⟩ | ⟨-, ⟨hlow, hhigh, hcode⟩ | ⟨i, hi, -, hcode⟩⟩ := ofChar?_cases h <;> omega
  refine ⟨hbounds.1, ?_⟩
  rintro rfl
  exact hbounds.2 rfl

theorem toChar?_ofChar? (h : ofChar? c = some code) : toChar? code = some (if c = '\r' then '\n' else c) := by
  obtain ⟨hc, hcode⟩ | ⟨hc, ⟨hlow, hhigh, hcode⟩ | ⟨i, hi, hget, hcode⟩⟩ := ofChar?_cases h
  · obtain rfl | rfl := hc
    · simp [toChar?, hcode]
    · simp [toChar?, hcode]
  · have hne : c.toNat ≠ 13 := by omega
    simp [toChar?, hcode, hc, hne, hlow, hhigh]
  · have hne : ¬ 155 + i = 13 := by omega
    have hrange : ¬ (32 ≤ 155 + i ∧ 155 + i ≤ 126) := by omega
    simp only [toChar?, hcode, hne, hrange, ↓reduceIte, Nat.le_add_right, Nat.add_sub_cancel_left, hget, hc]

theorem readable_cons (c : Char) (text : List Char) : readable (c :: text) = readable [c] ++ readable text := by
  rw [readable, readable, readable, ← List.map_append, ← List.filter_append]
  rfl

theorem readable_of_some (h : ofChar? c = some code) : readable [c] = [if c = '\r' then '\n' else c] := by
  simp [readable, h]

theorem readable_of_none (h : ofChar? c = none) : readable [c] = [] := by
  simp [readable, h]

theorem readable_eq_self {text : List Char} (h : ∀ c ∈ text, (ofChar? c).isSome ∧ c ≠ '\r') :
    readable text = text := by
  have hfilter : (text.filter fun c => (ofChar? c).isSome) = text := by
    rw [List.filter_eq_self]
    intro c hc
    exact (h c hc).1
  have hmap : (text.map fun c => if c = '\r' then '\n' else c) = text.map id := by
    apply List.map_congr_left
    intro c hc
    exact if_neg (h c hc).2
  rw [readable, hfilter, hmap, List.map_id]

end Zscii

namespace Alphabets

variable {A : Alphabets}

theorem places_bounds : ∀ p ∈ places, 6 ≤ p.2 ∧ (p.1 = 2 → 8 ≤ p.2) := by decide

theorem find?_some {code : UInt16} {r : Fin 3} {z : Zchar} (h : A.find? code = some (r, z)) :
    (A.code r z).toUInt16 = code ∧ 6 ≤ z ∧ (r = 2 → 8 ≤ z) := by
  have hcode := List.find?_some h
  have hplace := places_bounds _ (List.mem_of_find?_eq_some h)
  exact ⟨of_decide_eq_true hcode, hplace⟩

theorem char_newline {m : Memory} (h : ofMemory m = .ok A) : A.char 2 7 = '\n' := by
  have hten : A.code 2 7 = 10 := by
    unfold ofMemory at h
    dsimp only at h
    split at h
    · cases h
      rfl
    · obtain ⟨lower, -, h⟩ := ok_of_bind_except h
      obtain ⟨upper, -, h⟩ := ok_of_bind_except h
      obtain ⟨punctuation, -, h⟩ := ok_of_bind_except h
      cases h
      exact Vector.getElem_set_self _
  rw [char, hten]
  rfl

theorem char_of_code {r : Fin 3} {z : Zchar} {c : Char} {code : UInt16} (h : (A.code r z).toUInt16 = code)
    (hc : Zscii.ofChar? c = some code) : A.char r z = if c = '\r' then '\n' else c := by
  have hne : A.code r z ≠ 10 := by
    intro hten
    rw [hten] at h
    exact (Zscii.code_bounds hc).2 h.symm
  rw [char, if_neg hne, h, Zscii.toChar?_ofChar? hc]
  rfl

end Alphabets

section Spelling

variable {A : Alphabets} {expand : Except Fault (Nat → Except Fault (List Char))} {text : List Char}
  {zs : List Zchar}

theorem spell_shift_upper (r : Fin 3) (zs : List Zchar) :
    spell A expand (.character r) (4 :: zs) = spell A expand (.character 1) zs := rfl

theorem spell_shift_punctuation (r : Fin 3) (zs : List Zchar) :
    spell A expand (.character r) (5 :: zs) = spell A expand (.character 2) zs := rfl

theorem spell_letter {r : Fin 3} {z : Zchar} (hz : 6 ≤ z) (hr : r = 2 → z ≠ 6)
    (h : spell A expand (.character 0) zs = .ok text) :
    spell A expand (.character r) (z :: zs) = .ok (A.char r z :: text) := by
  have hz' : 6 ≤ z.val := hz
  have h0 : z ≠ 0 := Fin.ne_of_val_ne (show z.val ≠ 0 by omega)
  have h3 : ¬ z ≤ 3 := show ¬ z.val ≤ 3 by omega
  have h4 : z ≠ 4 := Fin.ne_of_val_ne (show z.val ≠ 4 by omega)
  have h5 : z ≠ 5 := Fin.ne_of_val_ne (show z.val ≠ 5 by omega)
  have h6 : ¬ (z = 6 ∧ r = 2) := fun ⟨hz6, hr2⟩ => hr hr2 hz6
  simp only [spell, h0, h3, h4, h5, h6, ↓reduceIte, h]
  rfl

theorem spell_code {code : UInt16} {c : Char} (hlt : code.toNat < 1024) (hc : Zscii.toChar? code = some c)
    (h : spell A expand (.character 0) zs = .ok text) :
    spell A expand (.character 2) (6 :: Fin.ofNat 32 (code.toNat / 32) :: Fin.ofNat 32 code.toNat :: zs) =
      .ok (c :: text) := by
  have hcode : UInt16.ofNat ((Fin.ofNat 32 (code.toNat / 32)).val * 32 + (Fin.ofNat 32 code.toNat).val) = code := by
    apply UInt16.toNat_inj.1
    rw [UInt16.toNat_ofNat', Fin.val_ofNat, Fin.val_ofNat]
    omega
  change (do
    let char := Zscii.toChar? (UInt16.ofNat _)
    return char.toList ++ (← spell A expand (.character 0) zs)) = _
  rw [hcode, hc, h]
  rfl

theorem spell_padding (r : Fin 3) (k : Nat) :
    spell A expand (.character r) (List.replicate k 5) = .ok [] := by
  induction k generalizing r with
  | zero => rfl
  | succ k ih => exact ih 2

theorem spell_zchars (hA : A.char 2 7 = '\n') (c : Char) (h : spell A expand (.character 0) zs = .ok text) :
    spell A expand (.character 0) (zchars A c ++ zs) = .ok (Zscii.readable [c] ++ text) := by
  unfold zchars
  by_cases hspace : c = ' '
  · subst hspace
    rw [if_pos rfl, show Zscii.readable [' '] = [' '] by decide]
    exact congrArg (· >>= fun rest => pure (' ' :: rest)) h
  by_cases hline : c = '\n'
  · subst hline
    have hspell := spell_letter (A := A) (r := 2) (z := 7) (by decide) (by decide) h
    rw [hA] at hspell
    rw [if_neg hspace, if_pos rfl, show Zscii.readable ['\n'] = ['\n'] by decide,
      List.cons_append, spell_shift_punctuation]
    exact hspell
  rw [if_neg hspace, if_neg hline]
  cases hcode : Zscii.ofChar? c with
  | none =>
    rw [Zscii.readable_of_none hcode]
    exact h
  | some code =>
    rw [Zscii.readable_of_some hcode]
    dsimp only
    cases hfind : A.find? code with
    | none =>
      rw [List.cons_append, spell_shift_punctuation]
      exact spell_code (Zscii.code_bounds hcode).1 (Zscii.toChar?_ofChar? hcode) h
    | some place =>
      obtain ⟨r, z⟩ := place
      obtain ⟨hz, hlow, hhigh⟩ := Alphabets.find?_some hfind
      have hr : r = 2 → z ≠ 6 := by
        rintro hr2 rfl
        exact absurd (hhigh hr2) (by decide)
      have hspell := spell_letter hlow hr h
      rw [Alphabets.char_of_code hz hcode] at hspell
      match r with
      | 0 => exact hspell
      | 1 => exact (spell_shift_upper 0 _).trans hspell
      | 2 => exact (spell_shift_punctuation 0 _).trans hspell

theorem spell_encoded (hA : A.char 2 7 = '\n') (text : List Char) (k : Nat) :
    spell A expand (.character 0) (text.flatMap (zchars A) ++ List.replicate k 5) =
      .ok (Zscii.readable text) := by
  induction text with
  | nil => exact spell_padding 0 k
  | cons c text ih =>
    rw [List.flatMap_cons, List.append_assoc, spell_zchars hA c ih, ← Zscii.readable_cons]

theorem encodeString_terminated (A : Alphabets) (text : List Char) : Terminated (encodeString A text) := by
  unfold encodeString
  split
  · exact pack_terminated (by simp)
  · next hne => exact pack_terminated hne

theorem spell_encodeString (hA : A.char 2 7 = '\n') (text : List Char) :
    spell A expand (.character 0) ((encodeString A text).flatMap unpackWord) = .ok (Zscii.readable text) := by
  unfold encodeString
  split
  · next hempty =>
    have hspell : spell A expand (.character 0) (text.flatMap (zchars A) ++ List.replicate 3 5) =
        .ok (Zscii.readable text) := spell_encoded hA text 3
    rw [hempty] at hspell
    exact hspell
  · obtain ⟨k, -, heq⟩ := unpack_pack (text.flatMap (zchars A))
    rw [heq]
    exact spell_encoded hA text k

end Spelling

/-- An encoded text of at most 4096 words that is stored in memory, and leaves the alphabets as they
are, takes two bytes a word there and reads back as the text. -/
theorem text_of_stored_encoding {m : Memory} {A : Alphabets} {a : Nat} {t : List Char}
    (hA : Alphabets.ofMemory m = .ok A) (hlen : (encodeString A t).length ≤ 4096)
    (hin : a + 2 * (encodeString A t).length ≤ m.size) :
    ∃ m', Machine.setWords a (encodeString A t) m = .ok () m' ∧
      (Alphabets.ofMemory m' = .ok A →
        m'.wordCount a = .ok (encodeString A t).length ∧
        Fetch.string m' a = .ok (a, a + 2 * (encodeString A t).length) ∧
        m'.text a = .ok (Zscii.readable t) ∧
        ((∀ c ∈ t, (Zscii.ofChar? c).isSome ∧ c ≠ '\r') → m'.text a = .ok t)) := by
  obtain ⟨m', hset, -, hstores⟩ := Machine.setWords_ok hin
  refine ⟨m', hset, fun hA' => ?_⟩
  have hwords : m'.stringWords a = .ok (encodeString A t) :=
    hstores.stringWordsFrom (encodeString_terminated A t) hlen
  have hcount : m'.wordCount a = .ok (encodeString A t).length := by
    rw [Memory.wordCount, hwords]
    rfl
  have htext : m'.text a = .ok (Zscii.readable t) := by
    rw [Memory.text, hA']
    change m'.spellAt A a (.ok (m'.abbreviation A)) = _
    rw [Memory.spellAt, hwords]
    exact spell_encodeString (Alphabets.char_newline hA) t
  refine ⟨hcount, ?_, htext, fun hall => ?_⟩
  · rw [Fetch.string, hcount]
    rfl
  · rw [htext, Zscii.readable_eq_self hall]

def mutedStory : Memory :=
  -- A story of version 5 whose own alphabets, at 64, hold no characters.
  ⟨⟨5 :: (List.replicate 52 0 ++ 64 :: List.replicate 100 0)⟩, by simp, by simp⟩

def mutedAlphabets : Alphabets where
  lower := Vector.replicate 26 0
  upper := Vector.replicate 26 0
  punctuation := Vector.ofFn fun i => if i.val = 0 then 32 else if i.val = 1 then 10 else 0

theorem ofMemory_mutedStory : Alphabets.ofMemory mutedStory = .ok mutedAlphabets := by
  apply ok_of_toOption
  decide +kernel

theorem text_of_stored_encoding_muted :
    Alphabets.ofMemory mutedStory = .ok mutedAlphabets ∧
      ∃ m', Machine.setWords 142 (encodeString mutedAlphabets ['a', '€', '\r']) mutedStory = .ok () m' ∧
        m'.text 142 = .ok ['a', '\n'] := by
  obtain ⟨m', hset, hread⟩ := text_of_stored_encoding (a := 142) (t := ['a', '€', '\r']) ofMemory_mutedStory
    (by decide +kernel) (by decide +kernel)
  have hkeep : Alphabets.ofMemory (ending (Machine.setWords 142
      (encodeString mutedAlphabets ['a', '€', '\r']) mutedStory)) = .ok mutedAlphabets := by
    apply ok_of_toOption
    decide +kernel
  rw [hset] at hkeep
  exact ⟨ofMemory_mutedStory, m', hset, (hread hkeep).2.2.1⟩

end ZMachine
