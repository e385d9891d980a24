import ZMachine.Proofs.Checked.Memory
import ZMachine.Proofs.Text.Packing
import ZMachine.Text.Decode
import ZMachine.Text.Encode

namespace ZMachine.Checked

def zsciiChar (code : UInt16) : Calc (Option Char) :=
  let n := code.toNat
  if n = 13 then .ok (some '\n')
  else if 32 ≤ n ∧ n ≤ 126 then .ok (some (Char.ofNat n))
  else if 155 ≤ n ∧ n ≤ 223 then do
    let c ← element Zscii.extras[← sub n 155]?
    return some c
  else .ok none

def zsciiCode (c : Char) : Calc (Option UInt16) :=
  if c = '\n' ∨ c = '\r' then .ok (some 13)
  else if ' ' ≤ c ∧ c ≤ '~' then .ok (some (UInt16.ofNat c.toNat))
  else
    match Zscii.extras.idxOf? c with
    | none => .ok none
    | some i => do return some (UInt16.ofNat (← add 16 155 i))

theorem zsciiChar_eq (code : UInt16) : zsciiChar code = .ok (Zscii.toChar? code) := by
  have extras : Zscii.extras.length = 69 := rfl
  unfold zsciiChar Zscii.toChar?
  dsimp only
  generalize code.toNat = n
  split
  · rfl
  · split
    · rfl
    · by_cases low : 155 ≤ n
      · by_cases high : n ≤ 223
        · have found := List.getElem?_eq_getElem (show n - 155 < Zscii.extras.length by omega)
          rw [if_pos ⟨low, high⟩, if_pos low, sub_of_le low, ok_bind, found]
          rfl
        · have missing := List.getElem?_eq_none (show Zscii.extras.length ≤ n - 155 by omega)
          rw [if_neg (by omega), if_pos low, missing]
      · rw [if_neg (by omega), if_neg low]

theorem zsciiCode_eq (c : Char) : zsciiCode c = .ok (Zscii.ofChar? c) := by
  have extras : Zscii.extras.length = 69 := rfl
  unfold zsciiCode Zscii.ofChar?
  split
  · rfl
  · split
    · rfl
    · cases hi : Zscii.extras.idxOf? c with
      | none => rfl
      | some i =>
        obtain ⟨inside, -⟩ := List.findIdx?_eq_some_iff_getElem.mp hi
        dsimp only
        rw [add_of_lt (by omega)]
        rfl

def replace (row : Vector UInt8 26) (i : Nat) (code : UInt8) : Calc (Vector UInt8 26) :=
  if h : i < 26 then .ok (row.set i code h) else .error .outOfBounds

def alphabets (m : Memory) : Calc Alphabets :=
  let table := m.alphabetTable.toNat
  if table = 0 then .ok .standard
  else do
    let row (r : Nat) : Calc (Vector UInt8 26) := do
      block m (← add 32 table (← mul 32 r 26)) 26
    let lower ← row 0
    let upper ← row 1
    let punctuation ← row 2
    return ⟨lower, upper, ← replace (← replace punctuation 0 32) 1 10⟩

def letter (A : Alphabets) (r : Fin 3) (z : Zchar) : Calc Char := do
  let code ← element (A.row r)[← sub z.val 6]?
  if code = 10 then return '\n' else return (← zsciiChar code.toUInt16).getD '?'

theorem alphabets_agrees (m : Memory) : Agrees (alphabets m) (Alphabets.ofMemory m) := by
  have ht := m.alphabetTable.toNat_lt
  unfold alphabets Alphabets.ofMemory
  dsimp only
  refine .ite (fun _ => .ok _) fun _ => ?_
  simp (disch := omega) only [mul_of_lt, add_of_lt, ok_bind]
  refine .bind (block_agrees (by omega) (by decide)) fun lower _ => ?_
  refine .bind (block_agrees (by omega) (by decide)) fun upper _ => ?_
  refine .bind (block_agrees (by omega) (by decide)) fun punctuation _ => ?_
  exact .ok _

theorem letter_eq (A : Alphabets) (r : Fin 3) {z : Zchar} (h : 6 ≤ z.val) :
    letter A r z = .ok (A.char r z) := by
  have inside : z.val - 6 < 26 := by omega
  have found : (A.row r)[z.val - 6]? = some (A.code r z) := Vector.getElem?_eq_getElem inside
  unfold letter Alphabets.char
  rw [sub_of_le h, ok_bind, found]
  simp only [element, ok_bind, zsciiChar_eq]
  split <;> rfl

def stringLength (m : Memory) (a : Nat) : Nat → Nat → Calc Nat
  | 0, _ => raise (.malformedText (.unterminated a))
  | left + 1, n => do
    let w ← word m (← add 32 a (← mul 32 2 n))
    let n ← add 32 n 1
    if endsText w then return n else stringLength m a left n

def stringPart (m : Memory) (a : Nat) : Nat → Nat → Calc (List UInt16)
  | 0, _ => return []
  | left + 1, n => do
    let w ← word m (← add 32 a (← mul 32 2 n))
    return w :: (← stringPart m a left (n + 1))

def stringWords (m : Memory) (a : Nat) : Calc (List UInt16) := do
  let n ← stringLength m a maxStringWords 0
  let _ ← mul 64 n 2
  stringPart m a n 0

section Strings

variable {m : Memory} {a : Nat}

theorem stringWordsFrom_bound {start left : Nat} {words : List UInt16}
    (h : m.stringWordsFrom start left a = .ok words) :
    words ≠ [] ∧ words.length ≤ left ∧ a + 2 * words.length ≤ 524288 := by
  induction left generalizing a words with
  | zero => cases h
  | succ left ih =>
    obtain ⟨w, hw, h⟩ := ok_of_bind_except h
    have inside := Memory.word_bound hw
    split at h
    · cases h
      simp only [ne_eq, List.cons_ne_nil, not_false_eq_true, List.length_singleton, true_and]
      omega
    · obtain ⟨rest, hr, h⟩ := ok_of_bind_except h
      cases h
      obtain ⟨-, hl, hb⟩ := ih hr
      simp only [ne_eq, List.cons_ne_nil, not_false_eq_true, List.length_cons, true_and]
      omega

theorem stringLength_agrees {left n : Nat} (ha : a + 2 * n < 2 ^ 32) :
    Agrees (stringLength m a left n)
      ((fun words => n + words.length) <$> m.stringWordsFrom a left (a + 2 * n)) := by
  -- A string begins inside the image or not at all, so its words are told apart in 32 bits.
  induction left generalizing n with
  | zero => exact .error trivial
  | succ left ih =>
    unfold stringLength Memory.stringWordsFrom
    rw [mul_of_lt (by omega), ok_bind, add_of_lt ha, ok_bind, map_bind]
    refine .bind (word_agrees ha) fun w hw => ?_
    -- the word just read is inside, which bounds the address of the one that follows
    have inside := Memory.word_bound hw
    rw [add_of_lt (by omega), ok_bind]
    split
    · exact .ok _
    · rw [map_bind]
      have rest := ih (n := n + 1) (by omega)
      simp only [show a + 2 * (n + 1) = a + 2 * n + 2 by omega] at rest
      generalize m.stringWordsFrom a left (a + 2 * n + 2) = words at rest
      cases words with
      | error e => exact rest
      | ok words =>
        have hl : n + 1 + words.length = n + (w :: words).length := by
          rw [List.length_cons]
          omega
        change Agrees (stringLength m a left (n + 1)) (.ok (n + 1 + words.length)) at rest
        rw [hl] at rest
        exact rest

theorem stringPart_eq {start left n : Nat} {words : List UInt16}
    (h : m.stringWordsFrom start left (a + 2 * n) = .ok words) :
    stringPart m a words.length n = .ok words := by
  induction left generalizing n words with
  | zero => cases h
  | succ left ih =>
    have bound := (stringWordsFrom_bound h).2.2
    obtain ⟨w, hw, h⟩ := ok_of_bind_except h
    have inside := Memory.word_bound hw
    have hx : word m (a + 2 * n) = .ok w := by
      rw [(word_agrees (by omega)).eq_plain, hw]
      rfl
    split at h
    · cases h
      simp (disch := omega) only [List.length_singleton, stringPart, mul_of_lt, add_of_lt, ok_bind, hx]
      rfl
    · obtain ⟨rest, hr, h⟩ := ok_of_bind_except h
      cases h
      rw [show a + 2 * n + 2 = a + 2 * (n + 1) by omega] at hr
      simp (disch := omega) only [List.length_cons, stringPart, mul_of_lt, add_of_lt, ok_bind, hx,
        ih hr]
      rfl

theorem stringLength_start (ha : a < 2 ^ 32) :
    Agrees (stringLength m a maxStringWords 0) (List.length <$> m.stringWords a) := by
  have hl := @stringLength_agrees m a maxStringWords 0 ha
  simp only [Nat.mul_zero, Nat.add_zero, Nat.zero_add] at hl
  exact hl

theorem stringWords_agrees (ha : a < 2 ^ 32) : Agrees (stringWords m a) (m.stringWords a) := by
  have hl : Agrees (stringLength m a maxStringWords 0) (List.length <$> m.stringWords a) :=
    stringLength_start ha
  unfold stringWords
  cases hw : m.stringWords a with
  | error e =>
    rw [hw] at hl
    rw [hl.eq_plain]
    exact .error hl.expected
  | ok words =>
    have bound := stringWordsFrom_bound hw
    rw [hw] at hl
    rw [hl.eq_plain]
    change Agrees (do let _ ← mul 64 words.length 2; stringPart m a words.length 0) _
    rw [mul_of_lt (by omega), ok_bind, @stringPart_eq m a a maxStringWords 0 words hw]
    exact .ok _

end Strings

def spell (A : Alphabets) (expand : Calc (Nat → Calc (List Char))) :
    TextMode → List Zchar → Calc (List Char)
  | _, [] => .ok []
  | .abbreviation bank, z :: zs => do
    let expand' ← expand
    let text ← expand' (← add 32 (← mul 32 32 (← sub bank.val 1)) z.val)
    return text ++ (← spell A expand (.character 0) zs)
  | .codeTop, z :: zs => spell A expand (.codeBottom z) zs
  | .codeBottom top, z :: zs => do
    let char ← zsciiChar (UInt16.ofNat (top.val * 32 + z.val))
    return char.toList ++ (← spell A expand (.character 0) zs)
  | .character r, z :: zs =>
    if z = 0 then do return ' ' :: (← spell A expand (.character 0) zs)
    else if z ≤ 3 then do
      let _ ← expand
      spell A expand (.abbreviation z) zs
    else if z = 4 then spell A expand (.character 1) zs
    else if z = 5 then spell A expand (.character 2) zs
    else if z = 6 ∧ r = 2 then spell A expand .codeTop zs
    else do return (← letter A r z) :: (← spell A expand (.character 0) zs)

def spellAt (m : Memory) (A : Alphabets) (a : Nat) (expand : Calc (Nat → Calc (List Char))) :
    Calc (List Char) := do
  spell A expand (.character 0) ((← stringWords m a).flatMap unpackWord)

def abbreviation (m : Memory) (A : Alphabets) (n : Nat) : Calc (List Char) := do
  let w ← word m (← add 32 m.abbreviationsTable.toNat (← mul 32 2 n))
  let a ← mul 32 w.toNat 2
  spellAt m A a (raise (.malformedText (.nestedAbbreviation a)))

def text (m : Memory) (a : Nat) : Calc (List Char) := do
  let A ← alphabets m
  spellAt m A a (.ok (abbreviation m A))

inductive Expands : Calc (Nat → Calc (List Char)) → Except Fault (Nat → Except Fault (List Char)) → Prop
  | ok {f : Nat → Calc (List Char)} {g : Nat → Except Fault (List Char)}
    (h : ∀ n < 1024, Agrees (f n) (g n)) : Expands (.ok f) (.ok g)
  | error {e : Fault} (h : e.Expected) : Expands (raise e) (.error e)

def InBank : TextMode → Prop
  | .abbreviation bank => 1 ≤ bank.val
  | _ => True

theorem spell_agrees {A : Alphabets} {f : Calc (Nat → Calc (List Char))}
    {g : Except Fault (Nat → Except Fault (List Char))} (h : Expands f g) {mode : TextMode}
    (hm : InBank mode) (zs : List Zchar) :
    Agrees (spell A f mode zs) (ZMachine.spell A g mode zs) := by
  induction zs generalizing mode with
  | nil => cases mode <;> exact .ok _
  | cons z zs ih =>
    have next : Agrees (spell A f (.character 0) zs) (ZMachine.spell A g (.character 0) zs) :=
      ih trivial
    cases mode with
    | abbreviation bank =>
      have hb : 1 ≤ bank.val := hm
      unfold spell ZMachine.spell
      cases h with
      | error h => exact .error h
      | ok h =>
        simp (disch := omega) only [ok_bind, sub_of_le, mul_of_lt, add_of_lt]
        exact .bind (h _ (by omega)) fun _ _ => .bind next fun _ _ => .ok _
    | codeTop => exact ih trivial
    | codeBottom top =>
      unfold spell ZMachine.spell
      rw [zsciiChar_eq, ok_bind]
      exact .bind next fun _ _ => .ok _
    | character r =>
      unfold spell ZMachine.spell
      refine .ite (fun _ => .bind next fun _ _ => .ok _) fun h0 => ?_
      refine .ite (fun _ => ?_) fun h3 => ?_
      · -- a Z-character that opens an abbreviation is not 0, so its bank can be counted from 1
        have bank : InBank (.abbreviation z) := Nat.pos_of_ne_zero fun hz => h0 (Fin.ext hz)
        cases h with
        | error h => exact .error h
        | ok h => exact ih bank
      refine .ite (fun _ => ih trivial) fun h4 => .ite (fun _ => ih trivial) fun h5 => ?_
      refine .ite (fun _ => ih trivial) fun _ => ?_
      have late : 6 ≤ z.val := by
        have h3' : ¬z.val ≤ 3 := h3
        have h4' : z.val ≠ 4 := fun hz => h4 (Fin.ext hz)
        have h5' : z.val ≠ 5 := fun hz => h5 (Fin.ext hz)
        omega
      rw [letter_eq A r late, ok_bind]
      exact .bind next fun _ _ => .ok _

section Spelling

variable {m : Memory} {A : Alphabets}

theorem spellAt_agrees {a : Nat} {f : Calc (Nat → Calc (List Char))}
    {g : Except Fault (Nat → Except Fault (List Char))} (ha : a < 2 ^ 32) (h : Expands f g) :
    Agrees (spellAt m A a f) (m.spellAt A a g) :=
  .bind (stringWords_agrees ha) fun _ _ => @spell_agrees A f g h (.character 0) trivial _

theorem abbreviation_agrees {n : Nat} (hn : n < 1024) :
    Agrees (abbreviation m A n) (m.abbreviation A n) := by
  have ht := m.abbreviationsTable.toNat_lt
  unfold abbreviation Memory.abbreviation
  rw [mul_of_lt (by omega), ok_bind, add_of_lt (by omega), ok_bind]
  refine .bind (word_agrees (by omega)) fun w _ => ?_
  have hw := w.toNat_lt
  rw [mul_of_lt (by omega), ok_bind]
  exact spellAt_agrees (by omega) (.error trivial)

theorem text_agrees {a : Nat} (ha : a < 2 ^ 32) : Agrees (text m a) (m.text a) :=
  .bind (alphabets_agrees m) fun _ _ => spellAt_agrees ha (.ok fun _ hn => abbreviation_agrees hn)

end Spelling

def slots : List (Fin 3 × Nat) :=
  let letters := List.range 26
  letters.map (0, ·) ++ letters.map (1, ·) ++ (letters.drop 2).map (2, ·)

def findFrom (A : Alphabets) (zscii : UInt16) : List (Fin 3 × Nat) → Calc (Option (Fin 3 × Zchar))
  | [] => .ok none
  | (r, i) :: rest => do
    let code ← element (A.row r)[i]?
    if code.toUInt16 = zscii then return some (r, Fin.ofNat 32 (← add 8 i 6))
    else findFrom A zscii rest

def zchars (A : Alphabets) (c : Char) : Calc (List Zchar) :=
  if c = ' ' then .ok [0]
  else if c = '\n' then .ok [5, 7]
  else do
    match ← zsciiCode c with
    | none => return []
    | some code =>
      match ← findFrom A code slots with
      | some (0, z) => return [z]
      | some (r, z) => return [Fin.ofNat 32 (← add 8 3 r.val), z]
      | none => return [5, 6, Fin.ofNat 32 (← shiftRight 16 code.toNat 5), Fin.ofNat 32 code.toNat]

def packChunk (last : Bool) (chunk : List Zchar) : Calc UInt16 := do
  span 0 chunk.length 3
  let padded := chunk ++ List.replicate (3 - chunk.length) 5
  return packWord last (← element padded[0]?) (← element padded[1]?) (← element padded[2]?)

def pack : List Zchar → Calc (List UInt16)
  | [] => .ok []
  | [a] => do return [← packChunk true [a]]
  | [a, b] => do return [← packChunk true [a, b]]
  | [a, b, c] => do return [← packChunk true [a, b, c]]
  | a :: b :: c :: rest => do return (← packChunk false [a, b, c]) :: (← pack rest)

def zcharsUpTo (A : Alphabets) (n : Nat) : List Zchar → List Char → Calc (List Zchar)
  | zs, [] => .ok zs
  | zs, c :: rest => if n ≤ zs.length then .ok zs else do zcharsUpTo A n (zs ++ (← zchars A c)) rest

def encodeWord (A : Alphabets) (version : UInt8) (text : List Char) : Calc (List UInt16) := do
  let n := resolution version
  pack (resize n (← zcharsUpTo A n [] (text.flatMap lowerCase)))

theorem findFrom_eq {A : Alphabets} {zscii : UInt16} {places : List (Fin 3 × Nat)}
    (h : ∀ p ∈ places, p.2 < 26) :
    findFrom A zscii places = .ok ((places.map fun p => (p.1, Fin.ofNat 32 (p.2 + 6))).find?
      fun p => (A.code p.1 p.2).toUInt16 = zscii) := by
  induction places with
  | nil => rfl
  | cons p rest ih =>
    obtain ⟨r, i⟩ := p
    obtain ⟨hi, hr⟩ := List.forall_mem_cons.mp h
    have hi : i < 26 := hi
    have place : (Fin.ofNat 32 (i + 6)).val - 6 = i := by
      simp only [Fin.ofNat, Fin.val_mk]
      omega
    have found : (A.row r)[i]? = some (A.code r (Fin.ofNat 32 (i + 6))) := by
      simp only [Alphabets.code, place]
      exact Vector.getElem?_eq_getElem hi
    unfold findFrom
    rw [found, List.map_cons, List.find?_cons]
    simp only [element, ok_bind, ih hr]
    split
    · next same =>
      simp only [same, decide_true, add_of_lt (show i + 6 < 2 ^ 8 by omega), ok_bind]
      rfl
    · next other => simp only [other, decide_false]

theorem find_eq (A : Alphabets) (zscii : UInt16) :
    findFrom A zscii slots = .ok (A.find? zscii) :=
  findFrom_eq (by decide)

theorem zchars_eq (A : Alphabets) (c : Char) : zchars A c = .ok (ZMachine.zchars A c) := by
  unfold zchars ZMachine.zchars
  split
  · rfl
  · split
    · rfl
    · rw [zsciiCode_eq, ok_bind]
      cases Zscii.ofChar? c with
      | none => rfl
      | some code =>
        dsimp only
        rw [find_eq, ok_bind]
        rcases A.find? code with _ | ⟨r, z⟩
        · dsimp only
          rw [shiftRight_of_lt (by decide), Nat.shiftRight_eq_div_pow]
          rfl
        · match r with
          | 0 => rfl
          | 1 => rfl
          | 2 => rfl

theorem pack_eq (zs : List Zchar) : pack zs = .ok (ZMachine.pack zs) := by
  fun_induction ZMachine.pack zs with
  | case1 => rfl
  | case2 a => rfl
  | case3 a b => rfl
  | case4 a b c => rfl
  | case5 a b c rest more ih =>
    obtain ⟨d, rest, rfl⟩ := List.exists_cons_of_ne_nil more
    rw [pack, ih]
    · rfl
    · exact more

theorem zcharsUpTo_eq (A : Alphabets) (n : Nat) (zs : List Zchar) (text : List Char) :
    zcharsUpTo A n zs text = .ok (ZMachine.zcharsUpTo A n zs text) := by
  induction text generalizing zs with
  | nil => rfl
  | cons c rest ih =>
    rw [zcharsUpTo, ZMachine.zcharsUpTo]
    split
    · rfl
    · rw [zchars_eq, ok_bind, ih]

theorem encodeWord_eq (A : Alphabets) (version : UInt8) (text : List Char) :
    encodeWord A version text = .ok (ZMachine.encodeWord A version text) := by
  unfold encodeWord ZMachine.encodeWord
  dsimp only
  rw [zcharsUpTo_eq, ok_bind, pack_eq]

end ZMachine.Checked
