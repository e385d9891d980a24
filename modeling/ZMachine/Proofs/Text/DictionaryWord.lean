import ZMachine.Proofs.Text.RoundTrip

namespace ZMachine

namespace Zscii

def coded (c : Char) : Bool := (ofChar? c).isSome

/-- Lower case by any rule that differs from ours in characters without a code only. -/
def LowerCasing (lower : Char → List Char) : Prop := ∀ c, (lower c).filter coded = (lowerCase c).filter coded

theorem filter_lowered {lower : Char → List Char} (h : LowerCasing lower) (t : List Char) :
    (t.flatMap lower).filter coded = (t.flatMap lowerCase).filter coded := by
  simp only [List.filter_flatMap, h _]

theorem readable_eq_map (text : List Char) :
    readable text = (text.filter coded).map fun c => if c = '\r' then '\n' else c := rfl

theorem isPrefix_readable {s t : List Char} (h : s <+: t) : readable s <+: readable t := by
  simp only [readable_eq_map]
  apply List.IsPrefix.map
  exact h.filter _

end Zscii

section Packing

theorem length_unpacked (ws : List UInt16) : (ws.flatMap unpackWord).length = 3 * ws.length := by
  induction ws with
  | nil => rfl
  | cons w ws ih =>
    simp only [List.flatMap_cons, List.length_append, List.length_cons, ih, unpackWord]
    simp only [List.length_nil]
    omega

theorem unpack_pack_of_mod {zs : List Zchar} (h : zs.length % 3 = 0) :
    (pack zs).flatMap unpackWord = zs := by
  obtain ⟨k, -, heq⟩ := unpack_pack zs
  have hlen := length_unpacked (pack zs)
  rw [length_pack, heq, List.length_append, List.length_replicate] at hlen
  obtain rfl : k = 0 := by omega
  simpa using heq

end Packing

section Encoding

variable {A : Alphabets} {version : UInt8} {c : Char} {n : Nat}

theorem resolution_cases (version : UInt8) :
    version ≤ 3 ∧ resolution version = 6 ∨ ¬ version ≤ 3 ∧ resolution version = 9 := by
  unfold resolution
  split
  · next h => exact .inl ⟨h, rfl⟩
  · next h => exact .inr ⟨h, rfl⟩

theorem zchars_cases (A : Alphabets) (c : Char) :
    zchars A c = [] ∨ (∃ z, zchars A c = [z]) ∨ (∃ z, zchars A c = [4, z]) ∨ (∃ z, zchars A c = [5, z]) ∨
      ∃ top bottom, zchars A c = [5, 6, top, bottom] := by
  unfold zchars
  split
  · exact .inr (.inl ⟨0, rfl⟩)
  · split
    · exact .inr (.inr (.inr (.inl ⟨7, rfl⟩)))
    · split
      · exact .inl rfl
      · split
        · exact .inr (.inl ⟨_, rfl⟩)
        · exact .inr (.inr (.inl ⟨_, rfl⟩))
        · exact .inr (.inr (.inr (.inl ⟨_, rfl⟩)))
        · exact .inr (.inr (.inr (.inr ⟨_, _, rfl⟩)))

theorem zchars_of_not_coded (h : Zscii.coded c = false) : zchars A c = [] := by
  have hnone : Zscii.ofChar? c = none := by simpa [Zscii.coded] using h
  have hspace : c ≠ ' ' := by
    rintro rfl
    exact absurd h (by decide)
  have hline : c ≠ '\n' := by
    rintro rfl
    exact absurd h (by decide)
  simp [zchars, hspace, hline, hnone]

theorem flatMap_zchars_filter (A : Alphabets) (text : List Char) :
    (text.filter Zscii.coded).flatMap (zchars A) = text.flatMap (zchars A) := by
  induction text with
  | nil => rfl
  | cons c text ih =>
    by_cases hc : Zscii.coded c
    · simp [hc, ih]
    · rw [Bool.not_eq_true] at hc
      simp [hc, ih, zchars_of_not_coded]

theorem encodeWord_eq_pack {lower : Char → List Char} (h : Zscii.LowerCasing lower) (A : Alphabets)
    (version : UInt8) (t : List Char) :
    encodeWord A version t = pack (((t.flatMap lower).flatMap (zchars A) ++
      List.replicate (resolution version) 5).take (resolution version)) := by
  have hzs : (t.flatMap lower).flatMap (zchars A) = (t.flatMap lowerCase).flatMap (zchars A) := by
    rw [← flatMap_zchars_filter, Zscii.filter_lowered h, flatMap_zchars_filter]
  rw [hzs, encodeWord_eq_whole, resize, List.take_append, List.take_replicate,
    Nat.min_eq_left (Nat.sub_le _ _)]

theorem length_cut (zs : List Zchar) (n : Nat) : ((zs ++ List.replicate n 5).take n).length = n := by simp

theorem unpack_encodeWord {lower : Char → List Char} (h : Zscii.LowerCasing lower) (A : Alphabets)
    (version : UInt8) (t : List Char) :
    (encodeWord A version t).flatMap unpackWord = ((t.flatMap lower).flatMap (zchars A) ++
      List.replicate (resolution version) 5).take (resolution version) := by
  rw [encodeWord_eq_pack h]
  apply unpack_pack_of_mod
  have := resolution_cases version
  rw [length_cut]
  omega

theorem encodeWord_terminated (A : Alphabets) (version : UInt8) (t : List Char) :
    Terminated (encodeWord A version t) := by
  rw [encodeWord_eq_pack (fun _ => rfl)]
  apply pack_terminated
  have := resolution_cases version
  rw [← List.length_pos_iff, length_cut]
  omega

end Encoding

section Cutting

variable {A : Alphabets} {expand : Except Fault (Nat → Except Fault (List Char))} {c : Char} {n : Nat}

/-- As many characters as are complete within `n` Z-characters. -/
def fitting (A : Alphabets) : Nat → List Char → List Char
  | _, [] => []
  | n, c :: text =>
    if (zchars A c).length ≤ n then c :: fitting A (n - (zchars A c).length) text else []

theorem isPrefix_fitting (A : Alphabets) (n : Nat) (text : List Char) : fitting A n text <+: text := by
  induction text generalizing n with
  | nil => exact List.prefix_rfl
  | cons c text ih =>
    rw [fitting]
    split
    · exact List.cons_prefix_cons.2 ⟨rfl, ih _⟩
    · exact List.nil_prefix

theorem spell_cut (hn : n < (zchars A c).length) :
    spell A expand (.character 0) ((zchars A c).take n) = .ok [] := by
  obtain h | ⟨z, h⟩ | ⟨z, h⟩ | ⟨z, h⟩ | ⟨top, bottom, h⟩ := zchars_cases A c
  · simp [h] at hn
  · rw [h] at hn ⊢
    obtain rfl : n = 0 := by simpa using hn
    rfl
  · rw [h] at hn ⊢
    obtain rfl | rfl : n = 0 ∨ n = 1 := by
      simp only [List.length_cons, List.length_nil] at hn
      omega
    · rfl
    · rfl
  · rw [h] at hn ⊢
    obtain rfl | rfl : n = 0 ∨ n = 1 := by
      simp only [List.length_cons, List.length_nil] at hn
      omega
    · rfl
    · rfl
  · rw [h] at hn ⊢
    -- a code may lose its lower half, both halves, or the escape that announces it
    obtain rfl | rfl | rfl | rfl : n = 0 ∨ n = 1 ∨ n = 2 ∨ n = 3 := by
      simp only [List.length_cons, List.length_nil] at hn
      omega
    · rfl
    · rfl
    · rfl
    · rfl

theorem spell_take (hA : A.char 2 7 = '\n') (text : List Char) (n k : Nat) :
    spell A expand (.character 0) ((text.flatMap (zchars A) ++ List.replicate k 5).take n) =
      .ok (Zscii.readable (fitting A n text)) := by
  induction text generalizing n with
  | nil =>
    rw [List.flatMap_nil, List.nil_append, List.take_replicate]
    exact spell_padding 0 _
  | cons c text ih =>
    rw [List.flatMap_cons, List.append_assoc, List.take_append, fitting]
    by_cases hfits : (zchars A c).length ≤ n
    · rw [if_pos hfits, List.take_of_length_le hfits, spell_zchars hA c (ih _), ← Zscii.readable_cons]
    · have hnone : n - (zchars A c).length = 0 := by omega
      rw [if_neg hfits, hnone, List.take_zero, List.append_nil]
      exact spell_cut (by omega)

theorem text_of_encodeWord {lower : Char → List Char} (h : Zscii.LowerCasing lower) {version : UInt8}
    {t : List Char} {m : Memory} {a : Nat} (hA : Alphabets.ofMemory m = .ok A)
    (hstores : m.Stores a (encodeWord A version t)) :
    m.text a = .ok (Zscii.readable (fitting A (resolution version) (t.flatMap lower))) := by
  have hshort : (encodeWord A version t).length ≤ 4096 := by
    have := resolution_cases version
    rw [length_encodeWord]
    omega
  have hwords : m.stringWords a = .ok (encodeWord A version t) :=
    hstores.stringWordsFrom (encodeWord_terminated A version t) hshort
  rw [Memory.text, hA]
  change m.spellAt A a (.ok (m.abbreviation A)) = _
  rw [Memory.spellAt, hwords]
  change spell A _ (.character 0) _ = _
  rw [unpack_encodeWord h]
  exact spell_take (Alphabets.char_newline hA) _ _ _

end Cutting

/-- A dictionary word is made of the first Z-characters of the text in lower case, whatever follows
them, and reads back as the characters that are complete. -/
theorem encodeWord_is_cut {lower : Char → List Char} (h : Zscii.LowerCasing lower) (A : Alphabets)
    (version : UInt8) (t : List Char) :
    (encodeWord A version t).length = (if version ≤ 3 then 2 else 3) ∧
      Terminated (encodeWord A version t) ∧
      (encodeWord A version t).flatMap unpackWord = ((t.flatMap lower).flatMap (zchars A) ++
        List.replicate (resolution version) 5).take (resolution version) ∧
      (∀ cs rest, t.flatMap lower = cs ++ rest → resolution version ≤ (cs.flatMap (zchars A)).length →
        (encodeWord A version t).flatMap unpackWord = (cs.flatMap (zchars A)).take (resolution version)) ∧
      ∀ m a, Alphabets.ofMemory m = .ok A → m.Stores a (encodeWord A version t) →
        m.text a = .ok (Zscii.readable (fitting A (resolution version) (t.flatMap lower))) ∧
        Zscii.readable (fitting A (resolution version) (t.flatMap lower)) <+:
          Zscii.readable (t.flatMap lower) := by
  have hunpack := unpack_encodeWord h A version t
  refine ⟨?_, encodeWord_terminated A version t, hunpack, ?_, ?_⟩
  · rw [length_encodeWord]
    obtain ⟨hv, hn⟩ | ⟨hv, hn⟩ := resolution_cases version
    · rw [hn, if_pos hv]
    · rw [hn, if_neg hv]
  · intro cs rest hsplit hlong
    rw [hunpack, hsplit, List.flatMap_append, List.append_assoc, List.take_append_of_le_length hlong]
  · intro m a hA hstores
    refine ⟨text_of_encodeWord h hA hstores, ?_⟩
    apply Zscii.isPrefix_readable
    exact isPrefix_fitting A _ _

def greekLower (c : Char) : List Char :=
  -- The lower case of the sigma has no code, and `lowerCase` leaves the capital as it is.
  if c = 'Σ' then ['σ'] else lowerCase c

theorem lowerCasing_greekLower : Zscii.LowerCasing greekLower := by
  intro c
  unfold greekLower
  split
  · next h =>
    subst h
    decide
  · rfl

def wordStory : Memory :=
  -- The dictionary word of `ÄΣbÖ` in version 3, at 64.
  ⟨⟨3 :: List.replicate 63 0 ++ [0x14, 0xC4, 0xEC, 0xE5]⟩, by simp, by simp⟩

theorem encodeWord_is_cut_umlauts :
    (encodeWord .standard 3 ['Ä', 'Σ', 'b', 'Ö']).flatMap unpackWord = [5, 6, 4, 27, 7, 5] ∧
      wordStory.text 64 = .ok ['ä', 'b'] ∧ ['ä', 'b'] <+: ['ä', 'b', 'ö'] := by
  obtain ⟨-, -, hzchars, -, hread⟩ := encodeWord_is_cut lowerCasing_greekLower .standard 3 ['Ä', 'Σ', 'b', 'Ö']
  have hA : Alphabets.ofMemory wordStory = .ok .standard := by
    apply ok_of_toOption
    decide +kernel
  have hwords : encodeWord .standard 3 ['Ä', 'Σ', 'b', 'Ö'] = [0x14C4, 0xECE5] := by decide +kernel
  have hstores : wordStory.Stores 64 (encodeWord .standard 3 ['Ä', 'Σ', 'b', 'Ö']) := by
    rw [hwords]
    exact ⟨rfl, rfl, trivial⟩
  obtain ⟨htext, hprefix⟩ := hread wordStory 64 hA hstores
  have hfits : Zscii.readable (fitting .standard (resolution 3) (['Ä', 'Σ', 'b', 'Ö'].flatMap greekLower)) =
      ['ä', 'b'] := by decide +kernel
  have hall : Zscii.readable (['Ä', 'Σ', 'b', 'Ö'].flatMap greekLower) = ['ä', 'b', 'ö'] := by decide +kernel
  rw [hfits] at htext hprefix
  rw [hall] at hprefix
  refine ⟨?_, htext, hprefix⟩
  rw [hzchars]
  decide +kernel

end ZMachine
