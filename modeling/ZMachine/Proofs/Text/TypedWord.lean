import ZMachine.Proofs.Machine.Quiet
import ZMachine.Proofs.Text.RoundTrip
import ZMachine.Session

namespace ZMachine

/-- The code of the character is its code point. -/
def Zscii.SelfCoded (c : Char) : Prop := (Zscii.ofChar? c).map UInt16.toNat = some c.toNat

instance (c : Char) : Decidable (Zscii.SelfCoded c) := inferInstanceAs (Decidable (_ = _))

/-- The characters that stored codes are taken for. -/
def misread (codes : List UInt8) : List Char := codes.map fun b => Char.ofNat b.toNat

def Coded (w : List Char) (codes : List UInt8) : Prop :=
  w.map Zscii.ofChar? = codes.map fun b => some b.toUInt16

theorem misread_eq_self {w : List Char} {codes : List UInt8} (hcodes : Coded w codes)
    (hself : ∀ c ∈ w, Zscii.SelfCoded c) : misread codes = w := by
  induction w generalizing codes with
  | nil =>
    cases codes with
    | nil => rfl
    | cons b codes => cases hcodes
  | cons c w ih =>
    cases codes with
    | nil => cases hcodes
    | cons b codes =>
      simp only [Coded, List.map_cons, List.cons.injEq] at hcodes
      have hc := hself c List.mem_cons_self
      rw [Zscii.SelfCoded, hcodes.1] at hc
      have hb : b.toNat = c.toNat := Option.some.inj hc
      have hrest := ih hcodes.2 fun x hx => hself x (List.mem_cons_of_mem _ hx)
      simp only [misread] at hrest
      simp only [misread, List.map_cons, hb, Char.ofNat_toNat, hrest]

section Encoding

variable {A : Alphabets} {version : UInt8}

theorem length_zchars_le (A : Alphabets) (c : Char) : (zchars A c).length ≤ 4 := by
  unfold zchars
  split
  · simp
  · split
    · simp
    · split
      · simp
      · split <;> simp

theorem length_lowered_le (A : Alphabets) (c : Char) :
    ((lowerCase c).flatMap (zchars A)).length ≤ 4 := by
  have single (x : Char) : ([x].flatMap (zchars A)).length ≤ 4 := by
    simpa using length_zchars_le A x
  have dotted : zchars A (Char.ofNat 0x307) = [] := by
    simp [zchars, show Zscii.ofChar? (Char.ofNat 0x307) = none by decide]
  unfold lowerCase
  dsimp only
  split
  · exact single _
  split
  · exact single _
  split
  · simpa [dotted] using length_zchars_le A 'i'
  iterate 5
    split
    · exact single _
  exact single _

theorem readable_of_encodeWord_eq {t u : List Char} (hA : A.char 2 7 = '\n')
    (ht : ((t.flatMap lowerCase).flatMap (zchars A)).length ≤ resolution version)
    (hu : ((u.flatMap lowerCase).flatMap (zchars A)).length ≤ resolution version)
    (h : encodeWord A version t = encodeWord A version u) :
    Zscii.readable (t.flatMap lowerCase) = Zscii.readable (u.flatMap lowerCase) := by
  have spelled {x : List Char}
      (hx : ((x.flatMap lowerCase).flatMap (zchars A)).length ≤ resolution version) :
      spell A (.error .divisionByZero) (.character 0)
        ((encodeWord A version x).flatMap unpackWord) = .ok (Zscii.readable (x.flatMap lowerCase)) := by
    rw [encodeWord_eq_whole, resize, List.take_of_length_le hx]
    obtain ⟨k, -, hk⟩ := unpack_pack ((x.flatMap lowerCase).flatMap (zchars A) ++
      List.replicate (resolution version - ((x.flatMap lowerCase).flatMap (zchars A)).length) 5)
    rw [hk, List.append_assoc, List.replicate_append_replicate]
    exact spell_encoded hA _ _
  have ht' := spelled ht
  rw [h, spelled hu] at ht'
  exact (Except.ok.inj ht').symm

theorem readable_misread_extra : ∀ i : Fin Zscii.extras.length,
    Zscii.readable (lowerCase (Char.ofNat (155 + i.val))) = Zscii.readable (lowerCase Zscii.extras[i]) →
      Zscii.SelfCoded Zscii.extras[i] := by
  decide +kernel

theorem encodeWord_misread_iff {m : Memory} {c : Char} {b : UInt8} (hA : Alphabets.ofMemory m = .ok A)
    (hc : Zscii.ofChar? c = some b.toUInt16) (hn : c ≠ '\n') :
    encodeWord A version (misread [b]) = encodeWord A version [c] ↔ Zscii.SelfCoded c := by
  have long : 4 ≤ resolution version := by
    unfold resolution
    split <;> omega
  have fits (x : Char) : (([x].flatMap lowerCase).flatMap (zchars A)).length ≤ resolution version := by
    simpa using Nat.le_trans (length_lowered_le A x) long
  constructor
  · intro h
    have hread := readable_of_encodeWord_eq (Alphabets.char_newline hA) (fits _) (fits c) h
    simp only [List.flatMap_cons, List.flatMap_nil, List.append_nil] at hread
    obtain ⟨hline, hcode⟩ | ⟨-, ⟨-, -, hcode⟩ | ⟨i, hi, hget, hcode⟩⟩ := Zscii.ofChar?_cases hc
    · obtain rfl | rfl := hline
      · exact absurd rfl hn
      · decide
    · rw [Zscii.SelfCoded, hc, Option.map_some, hcode]
    · obtain ⟨hlt, rfl⟩ := List.getElem?_eq_some_iff.1 hget
      rw [UInt8.toNat_toUInt16] at hcode
      rw [hcode] at hread
      exact readable_misread_extra ⟨i, hlt⟩ hread
  · intro hself
    have hw : misread [b] = [c] := by
      apply misread_eq_self
      · simp [Coded, hc]
      · simpa using hself
    rw [hw]

end Encoding

theorem Memory.Stores.unique {m : Memory} {a : Nat} {ws vs : List UInt16} (hw : m.Stores a ws)
    (hv : m.Stores a vs) (hlen : ws.length = vs.length) : ws = vs := by
  induction ws generalizing a vs with
  | nil => exact (List.eq_nil_of_length_eq_zero hlen.symm).symm
  | cons w ws ih =>
    cases vs with
    | nil => cases hlen
    | cons v vs =>
      have hhead : w = v := Except.ok.inj (hw.1.symm.trans hv.1)
      rw [hhead, ih hw.2 hv.2 (Nat.succ.inj hlen)]

namespace Machine

variable {η : Type}

theorem encodeAt_ok {m : Memory} {A : Alphabets} {version : UInt8} {source n dest : Nat}
    {codes : List UInt8} (hA : Alphabets.ofMemory m = .ok A) (hsource : m.slice source n = .ok codes)
    (hdest : dest + 2 * ((resolution version + 2) / 3) ≤ m.size) :
    ∃ m', encodeAt version source n dest m = .ok () m' ∧
      Memory.ChangesAt dest (2 * ((resolution version + 2) / 3)) m m' ∧
      m'.Stores dest (encodeWord A version (misread codes)) := by
  rw [← length_encodeWord A version (misread codes)] at hdest
  obtain ⟨m', hset, hc, hstores⟩ := setWords_ok hdest
  refine ⟨m', ?_, ?_, hstores⟩
  · have hbytes : Action.reading (Memory.slice · source n) m = .ok codes m := reading_ok hsource
    rw [encodeAt, bind_ok _ hbytes, bind_ok _ (reading_ok hA)]
    exact hset
  · rw [← length_encodeWord A version (misread codes)]
    exact hc

theorem stores_encodeWord_iff {m : Memory} {A : Alphabets} {version : UInt8} {a : Nat}
    {t u : List Char} (h : m.Stores a (encodeWord A version t)) :
    m.Stores a (encodeWord A version u) ↔ encodeWord A version t = encodeWord A version u := by
  constructor
  · intro hu
    apply h.unique hu
    rw [length_encodeWord, length_encodeWord]
  · intro heq
    rw [← heq]
    exact h

variable [Host η]

theorem executeInput_of_encodeAt {s : Machine η} {i : Instruction} {operands : List UInt16}
    {m : Memory} (hi : i.mnemonic = .encodeText)
    (h : encodeAt s.version ((operands.getD 0 0).toNat + (operands.getD 2 0).toNat)
      (operands.getD 1 0).toNat (operands.getD 3 0).toNat s.core.memory = .ok () m) :
    executeInput i operands s = .ok .proceeded { s with core := { s.core with memory := m } } := by
  unfold executeInput
  rw [bind_get]
  simp only [hi]
  rw [onMemory, bind_ok _ (onCore_ok (Core.onMemory_ok h))]
  rfl

/-- Encoding a typed word writes the dictionary word of its misread codes. That is the right one if
every character has its code point for a code, and for a single character only then. -/
theorem encodeText_of_codes {s : Machine η} {i : Instruction} {operands : List UInt16}
    {A : Alphabets} {w : List Char} {codes : List UInt8} (hi : i.mnemonic = .encodeText)
    (hA : Alphabets.ofMemory s.core.memory = .ok A) (hw : ∀ c ∈ w, c ≠ '\n' ∧ c ≠ '\r')
    (hcodes : Coded w codes)
    (hsource : s.core.memory.slice ((operands.getD 0 0).toNat + (operands.getD 2 0).toNat)
      (operands.getD 1 0).toNat = .ok codes)
    (hdest : (operands.getD 3 0).toNat + 2 * ((resolution s.version + 2) / 3) ≤ s.core.memory.size) :
    ∃ m', executeInput i operands s =
        .ok .proceeded { s with core := { s.core with memory := m' } } ∧
      Memory.ChangesAt (operands.getD 3 0).toNat (2 * ((resolution s.version + 2) / 3))
        s.core.memory m' ∧
      m'.Stores (operands.getD 3 0).toNat (encodeWord A s.version (misread codes)) ∧
      ((∀ c ∈ w, Zscii.SelfCoded c) →
        m'.Stores (operands.getD 3 0).toNat (encodeWord A s.version w)) ∧
      ∀ c, w = [c] →
        (m'.Stores (operands.getD 3 0).toNat (encodeWord A s.version w) ↔ Zscii.SelfCoded c) := by
  obtain ⟨m', hencode, hc, hstores⟩ := encodeAt_ok hA hsource hdest
  refine ⟨m', executeInput_of_encodeAt hi hencode, hc, hstores, ?_, ?_⟩
  · intro hself
    rw [misread_eq_self hcodes hself] at hstores
    exact hstores
  · rintro c rfl
    obtain ⟨b, rfl⟩ : ∃ b, codes = [b] := by
      apply List.length_eq_one_iff.1
      have hlen := congrArg List.length hcodes
      simpa using hlen.symm
    rw [stores_encodeWord_iff hstores]
    apply encodeWord_misread_iff hA
    · exact (List.cons.inj hcodes).1
    · exact (hw c List.mem_cons_self).1

def typedStory (line : String) : Memory :=
  -- A text buffer for ten characters at 64, filled with a typed line.
  let blank : Memory := ⟨⟨5 :: (List.replicate 63 0 ++ 10 :: List.replicate 31 0)⟩, by simp, by simp⟩
  ending (storeLine 5 64 line blank)

def typedMachine (line : String) : Machine Playback :=
  { core := ⟨typedStory line, typedStory line, [{ pc := 90 }]⟩, version := 5, host := {} }

def encodeInstruction : Instruction :=
  { address := 90, descriptor := .normal 5 0xFC, operands := [], store := none, branch := none,
    text := none, next := 96 }

theorem encodeText_of_codes_no :
    Coded ['n', 'o'] [110, 111] ∧
      ∃ m', executeInput encodeInstruction [64, 2, 2, 80] (typedMachine "No") =
          .ok .proceeded { typedMachine "No" with core := ⟨m', typedStory "No", [{ pc := 90 }]⟩ } ∧
        m'.Stores 80 (encodeWord .standard 5 ['n', 'o']) := by
  have hA : Alphabets.ofMemory (typedStory "No") = .ok .standard := by
    apply ok_of_toOption
    decide +kernel
  have hsource : (typedStory "No").slice 66 2 = .ok [110, 111] := by
    apply ok_of_toOption
    decide +kernel
  have hcodes : Coded ['n', 'o'] [110, 111] := rfl
  have hself : ∀ c ∈ ['n', 'o'], Zscii.SelfCoded c := by
    rw [List.forall_mem_cons, List.forall_mem_singleton]
    exact ⟨rfl, rfl⟩
  obtain ⟨m', hm, -, -, hstores, -⟩ := @encodeText_of_codes Playback _ (typedMachine "No")
    encodeInstruction [64, 2, 2, 80] _ _ _ rfl hA (by simp) hcodes hsource (by decide +kernel)
  exact ⟨hcodes, m', hm, hstores hself⟩

theorem encodeText_umlaut :
    Coded ['ä'] [155] ∧
      ∃ m', executeInput encodeInstruction [64, 1, 2, 80] (typedMachine "ä") =
          .ok .proceeded { typedMachine "ä" with core := ⟨m', typedStory "ä", [{ pc := 90 }]⟩ } ∧
        (typedStory "ä").slice 66 1 = .ok [155] ∧
        Alphabets.ofMemory (typedStory "ä") = .ok .standard ∧
        ¬ m'.Stores 80 (encodeWord .standard 5 ['ä']) := by
  have hA : Alphabets.ofMemory (typedStory "ä") = .ok .standard := by
    apply ok_of_toOption
    decide +kernel
  have hsource : (typedStory "ä").slice 66 1 = .ok [155] := by
    apply ok_of_toOption
    decide +kernel
  obtain ⟨m', hencode, -, hstores⟩ := @encodeAt_ok _ _ 5 66 1 80 _ hA hsource
    (by decide +kernel)
  refine ⟨rfl, m', executeInput_of_encodeAt rfl hencode, hsource, hA, ?_⟩
  rw [stores_encodeWord_iff hstores, encodeWord_misread_iff hA rfl (by decide)]
  decide

end Machine

end ZMachine
