import ZMachine.Proofs.Machine.Printing
import ZMachine.Proofs.Text.RoundTrip
import ZMachine.Session

namespace ZMachine

namespace Zscii

def shown (c : Char) : Char :=
  if (ofChar? c).isNone then '?' else if c = '\r' then '\n' else c

theorem toUInt16_codeOf (c : Char) : (Machine.codeOf c).toUInt16 = (ofChar? c).getD unknown := by
  rw [Machine.codeOf]
  cases h : ofChar? c with
  | none => rfl
  | some code =>
    have hlt : code.toNat < 256 := by
      obtain ⟨-, hcode⟩ | ⟨-, ⟨-, hhigh, hcode⟩ | ⟨i, hi, -, hcode⟩⟩ := ofChar?_cases h <;> omega
    apply UInt16.toNat_inj.1
    rw [Option.getD_some, UInt8.toNat_toUInt16, UInt16.toNat_toUInt8, Nat.mod_eq_of_lt hlt]

theorem toChar?_code (c : Char) : (toChar? ((ofChar? c).getD unknown)).getD '?' = shown c := by
  rw [shown]
  cases h : ofChar? c with
  | none => rfl
  | some code =>
    rw [Option.getD_some, toChar?_ofChar? h]
    rfl

end Zscii

namespace Machine

open Memory (ChangesAt ChangesWithin)

def TableByte (a n b : Nat) : Prop := a ≤ b ∧ b < a + 2 + n

/-- A table at `a` holds a text: its length, then the code of each character. -/
structure HoldsText (m : Memory) (a : Nat) (text : List Char) : Prop where
  count : ∃ w, m.word a = .ok w ∧ w.toNat = text.length
  code : ∀ k c, text[k]? = some c →
    ∃ b, m.byte (a + 2 + k) = .ok b ∧ b.toUInt16 = (Zscii.ofChar? c).getD Zscii.unknown

theorem TableByte.mono {a n k b : Nat} (h : TableByte a n b) (hn : n ≤ k) : TableByte a k b := by
  obtain ⟨hlow, hhigh⟩ := h
  exact ⟨hlow, by omega⟩

section Tables

variable {m n : Memory} {table : Nat} {text chunk : List Char}

theorem HoldsText.of_within {P : Nat → Prop} (h : HoldsText m table text) (hc : ChangesWithin P m n)
    (apart : ∀ b, P b → ¬ TableByte table text.length b) : HoldsText n table text := by
  have keep {b : Nat} (hb : TableByte table text.length b) : ¬ P b := fun hp => apart b hp hb
  constructor
  · obtain ⟨w, hw, hlen⟩ := h.count
    refine ⟨w, ?_, hlen⟩
    rw [hc.word fun b hb hb' => keep ⟨hb, by omega⟩, hw]
  · intro k c hk
    have hlt : k < text.length := List.getElem?_eq_some_iff.1 hk |>.1
    rw [hc.byte _ (keep ⟨by omega, by omega⟩)]
    exact h.code k c hk

theorem captureChars_ok {count : UInt16} (hc : count.toNat + text.length ≤ 65535)
    (hm : table + 2 + count.toNat + text.length ≤ m.bytes.size) :
    ∃ w n, captureChars table count text m = .ok w n ∧ w.toNat = count.toNat + text.length ∧
      ChangesAt (table + 2 + count.toNat) text.length m n ∧
      ∀ k c, text[k]? = some c → n.byte (table + 2 + count.toNat + k) = .ok (codeOf c) := by
  induction text generalizing m count with
  | nil => exact ⟨count, m, rfl, rfl, ⟨rfl, fun _ _ => rfl⟩, by simp⟩
  | cons c rest ih =>
    rw [List.length_cons] at hc hm
    obtain ⟨m₁, hset, hc₁, hb⟩ := Memory.setByte_ok (m := m) (a := table + 2 + count.toNat) (codeOf c)
      (by omega)
    have next : (count + 1).toNat = count.toNat + 1 := by
      rw [UInt16.toNat_add, UInt16.toNat_one]
      omega
    have hsize : m₁.bytes.size = m.bytes.size := hc₁.size
    have hcount : (count + 1).toNat + rest.length ≤ 65535 := by omega
    have hroom : table + 2 + (count + 1).toNat + rest.length ≤ m₁.bytes.size := by omega
    obtain ⟨w, n, hrest, hw, hc₂, hcodes⟩ := ih hcount hroom
    rw [next] at hw hc₂ hcodes
    refine ⟨w, n, ?_, ?_, ⟨hc₂.size.trans hc₁.size, ?_⟩, ?_⟩
    · rw [captureChars, bind_ok _ hset, hrest]
    · rw [hw, List.length_cons]
      omega
    · intro b hout
      rw [List.length_cons] at hout
      rw [hc₂.byte b (by omega), hc₁.byte b (by omega)]
    · intro k d hk
      cases k with
      | zero =>
        cases hk
        rw [Nat.add_zero, hc₂.byte _ (by omega), hb]
      | succ k =>
        rw [← hcodes k d hk]
        congr 1
        omega

theorem capture_ok (h : HoldsText m table text) (count : (text ++ chunk).length ≤ 65535)
    (room : table + 2 + (text ++ chunk).length ≤ m.bytes.size) :
    ∃ n, capture table chunk m = .ok () n ∧ HoldsText n table (text ++ chunk) ∧
      ChangesWithin (TableByte table (text ++ chunk).length) m n := by
  rw [List.length_append] at count room
  obtain ⟨w, hw, hlen⟩ := h.count
  have hcount : w.toNat + chunk.length ≤ 65535 := by omega
  have hroom : table + 2 + w.toNat + chunk.length ≤ m.bytes.size := by omega
  obtain ⟨w', m₁, hchars, hw', hc₁, hcodes⟩ := captureChars_ok hcount hroom
  have hsize : m₁.bytes.size = m.bytes.size := hc₁.size
  obtain ⟨n, hset, hc₂, hword⟩ := Memory.setWord_ok (m := m₁) (a := table) w' (by omega)
  rw [hlen] at hw' hc₁ hcodes
  refine ⟨n, ?_, ⟨⟨w', hword, ?_⟩, ?_⟩, ⟨hc₂.size.trans hc₁.size, ?_⟩⟩
  · rw [capture, bind_ok _ (reading_ok (f := (Memory.word · table)) hw), bind_ok _ hchars, hset]
  · rw [hw', List.length_append]
  · intro k c hk
    rw [hc₂.byte _ (by omega)]
    by_cases old : k < text.length
    · rw [List.getElem?_append_left old] at hk
      rw [hc₁.byte _ (by omega)]
      exact h.code k c hk
    · rw [List.getElem?_append_right (by omega)] at hk
      refine ⟨codeOf c, ?_, Zscii.toUInt16_codeOf c⟩
      rw [← hcodes _ c hk]
      congr 1
      omega
  · intro b hb
    rw [TableByte, List.length_append] at hb
    rw [hc₂.byte b (by omega), hc₁.byte b (by omega)]

theorem tableRow_of_codes {a : Nat} (h : ∀ k c, text[k]? = some c →
      ∃ b, m.byte (a + k) = .ok b ∧ b.toUInt16 = (Zscii.ofChar? c).getD Zscii.unknown) :
    tableRow m a text.length = .ok (text.map Zscii.shown) := by
  induction text generalizing a with
  | nil => rfl
  | cons c rest ih =>
    obtain ⟨b, hb, hcode⟩ := h 0 c rfl
    have hrest := ih (a := a + 1) fun k d hk => by
      rw [Nat.add_assoc, Nat.add_comm 1 k]
      exact h (k + 1) d hk
    rw [Nat.add_zero] at hb
    rw [List.length_cons, tableRow, hb, hrest, List.map_cons, ← Zscii.toChar?_code, ← hcode]
    rfl

end Tables

variable {η : Type}

def withMemory (m : Memory) (s : Machine η) : Machine η :=
  { s with core := { s.core with memory := m } }

def withTables (tables : List Nat) (s : Machine η) : Machine η :=
  { s with streams := { s.streams with tables } }

theorem openTable_cases {s t : Machine η} {table : Nat} (h : openTable table s = .ok () t) :
    ∃ m, t = (s.withMemory m).withTables (table :: s.streams.tables) ∧
      ChangesAt table 2 s.core.memory m ∧ m.word table = .ok 0 := by
  rw [openTable, bind_get] at h
  split at h
  · cases h
  · obtain ⟨_, t', hset, hopen⟩ := ok_of_bind_ok h
    by_cases inside : table + 1 < s.core.memory.bytes.size
    · obtain ⟨m, hm, hc, hw⟩ := Memory.setWord_ok 0 inside
      cases (onCore_ok (Core.onMemory_ok hm)).symm.trans hset
      cases hopen
      exact ⟨m, rfl, hc, hw⟩
    · have hm : Memory.setWord table 0 s.core.memory =
          .error (s.core.memory.outside table 2) s.core.memory := dif_neg inside
      cases (onCore_error (Core.onMemory_error hm)).symm.trans hset

variable [Host η]

def Collects (s : Machine η) (table : Nat) (text : List Char) : Prop :=
  ∀ chunk, (text ++ chunk).length ≤ 65535 →
    table + 2 + (text ++ chunk).length ≤ s.core.memory.bytes.size →
    ∃ m, output chunk s = .ok () (s.withMemory m) ∧ HoldsText m table (text ++ chunk) ∧
      ChangesWithin (TableByte table (text ++ chunk).length) s.core.memory m

/-- A run from `s` that prints a text, part by part. In between anything else may happen that
leaves the tables as they are, changes memory at places in `P` only, and does to the host what `R`
admits. -/
inductive Prints (P : Nat → Prop) (R : η → η → Prop) (s : Machine η) : List Char → Machine η → Prop
  | start : Prints P R s [] s
  | part {text : List Char} {t : Machine η} (run : Prints P R s text t) (chunk : List Char) :
    Prints P R s (text ++ chunk) (ending (output chunk t))
  | meanwhile {text : List Char} {t u : Machine η} (run : Prints P R s text t)
    (memory : ChangesWithin P t.core.memory u.core.memory)
    (tables : u.streams.tables = t.streams.tables) (host : R t.host u.host) : Prints P R s text u

/-- From `s` to `u` a table at the front of the others has taken a text. -/
structure Captured (P : Nat → Prop) (R : η → η → Prop) (s : Machine η) (table : Nat)
    (text : List Char) (u : Machine η) : Prop where
  holds : HoldsText u.core.memory table text
  memory : ChangesWithin (fun b => P b ∨ TableByte table text.length b) s.core.memory u.core.memory
  tables : u.streams.tables = table :: s.streams.tables
  host : R s.host u.host

/-- With the tables of `s` again, texts go behind what its innermost table held, unless something
was written there, or to the screen. -/
structure Resumes (P : Nat → Prop) (s v : Machine η) : Prop where
  table : ∀ outer rest before, s.streams.tables = outer :: rest →
    HoldsText s.core.memory outer before → (∀ b, P b → ¬ TableByte outer before.length b) →
    HoldsText v.core.memory outer before ∧ Collects v outer before
  screen : s.streams.tables = [] → ∀ chunk,
    output chunk v =
      if v.streams.screen then perform (.print (String.ofList chunk)) v else .ok () v

section Runs

variable {P : Nat → Prop} {R : η → η → Prop} {s t u : Machine η} {table : Nat} {text : List Char}
  {i : Instruction} {operands : List UInt16} {o : Outcome}

theorem collects_of_holds {outer : List Nat} (hs : s.streams.tables = table :: outer)
    (h : HoldsText s.core.memory table text) : Collects s table text := by
  intro chunk count room
  obtain ⟨m, hcapture, hholds, hc⟩ := capture_ok h count room
  refine ⟨m, ?_, hholds, hc⟩
  rw [output, bind_get, hs]
  exact onCore_ok (Core.onMemory_ok hcapture)

theorem executeDisplay_outputStream (hi : i.mnemonic = .outputStream) :
    (executeDisplay i operands : Action (Machine η) Outcome) = do
      selectStream (operands.getD 0 0).toInt16 (operands.getD 1 0)
      return .proceeded := by
  rw [executeDisplay, hi]

theorem captured_of_open [Std.Refl R] (hi : i.mnemonic = .outputStream) (hstream : operands.getD 0 0 = 3)
    (hplace : (operands.getD 1 0).toNat = table) (h : executeDisplay i operands s = .ok o t) :
    Captured P R s table [] t := by
  rw [executeDisplay_outputStream hi, hstream] at h
  obtain ⟨_, t', hopen, hout⟩ := ok_of_bind_ok h
  cases hout
  subst hplace
  obtain ⟨m, rfl, hc, hw⟩ := openTable_cases (show openTable _ s = .ok () t from hopen)
  refine ⟨⟨⟨0, hw, rfl⟩, by simp⟩, ?_, rfl, Std.Refl.refl s.host⟩
  exact hc.within fun b hlow hhigh => .inr ⟨hlow, hhigh⟩

theorem executeDisplay_close (hi : i.mnemonic = .outputStream) (hstream : operands.getD 0 0 = -3) :
    executeDisplay i operands s = .ok .proceeded (s.withTables s.streams.tables.tail) := by
  rw [executeDisplay_outputStream hi, hstream]
  rfl

theorem Prints.captured [IsTrans η R] (run : Prints P R t text u) (opened : Captured P R s table [] t)
    (count : text.length ≤ 65535) (room : table + 2 + text.length ≤ s.core.memory.bytes.size)
    (apart : ∀ b, P b → ¬ TableByte table text.length b) : Captured P R s table text u := by
  induction run with
  | start => exact opened
  | @part text v run chunk ih =>
    have hlen : text.length ≤ (text ++ chunk).length := by simp
    have h := ih (by omega) (by omega) fun b hp hb => apart b hp (hb.mono hlen)
    have hsize : v.core.memory.bytes.size = s.core.memory.bytes.size := h.memory.size
    obtain ⟨m, hout, hholds, hc⟩ := collects_of_holds h.tables h.holds chunk count (hsize ▸ room)
    rw [hout, ending_ok]
    refine ⟨hholds, ?_, h.tables, h.host⟩
    apply IsTrans.trans _ v.core.memory _
    · exact h.memory.mono fun b hb => hb.imp_right (·.mono hlen)
    · exact hc.mono fun b hb => .inr hb
  | meanwhile run memory tables host ih =>
    have h := ih count room apart
    refine ⟨h.holds.of_within memory apart, ?_, tables.trans h.tables, IsTrans.trans _ _ _ h.host host⟩
    exact IsTrans.trans _ _ _ h.memory (memory.mono fun b hb => .inl hb)

theorem Prints.speak (run : Prints P R s text t) (script : List Utterance) :
    Prints P R s (text ++ spoken script t) (ending (Machine.speak script t)) := by
  induction script generalizing text t with
  | nil =>
    rw [spoken, List.append_nil]
    exact run
  | cons v vs ih =>
    rw [spoken]
    cases hv : v t.core.memory with
    | error e =>
      rw [speak_error hv, List.append_nil]
      exact run
    | ok chunk =>
      rw [speak_ok hv]
      have further := run.part chunk
      dsimp only
      cases hout : output chunk t with
      | ok _ t' =>
        rw [hout] at further
        rw [bind_ok _ hout, ← List.append_assoc]
        exact ih further
      | error e t' =>
        rw [hout] at further
        rw [bind_error _ hout, List.append_nil]
        exact further

theorem Captured.resumes (h : Captured P R s table text u) :
    Resumes (fun b => P b ∨ TableByte table text.length b) s (u.withTables s.streams.tables) := by
  constructor
  · intro outer rest before htables hholds apart
    have hu : HoldsText u.core.memory outer before := hholds.of_within h.memory apart
    exact ⟨hu, collects_of_holds (s := u.withTables s.streams.tables) htables hu⟩
  · intro htables chunk
    rw [output, bind_get, show (u.withTables s.streams.tables).streams.tables = [] from htables]
    dsimp only
    split
    · rfl
    · rfl

theorem executeDisplay_printTable (hi : i.mnemonic = .printTable) (h : HoldsText s.core.memory table text)
    (ha : (operands.getD 0 0).toNat = table + 2) (hn : (operands.getD 1 0).toNat = text.length)
    (hrows : operands.getD 2 1 = 1) :
    executeDisplay i operands s = print (text.map Zscii.shown) s := by
  have hscript : script? i operands = some [fun m => tableRow m (table + 2) text.length] := by
    rw [script?, hi]
    dsimp only
    rw [ha, hn, hrows]
    rfl
  have hrow : tableRow s.core.memory (table + 2) text.length = .ok (text.map Zscii.shown) :=
    tableRow_of_codes h.code
  rw [executeDisplay_of_script hscript (by rw [hi]; rfl)]
  rw [bind_eq_of_eq _ (speak_ok hrow)]
  simp only [Machine.speak, leave, hi, print, bind_assoc, pure_bind]

/-- From the opening of a table to the present, all that was printed stands in the table, and what is
printed next goes there too. Every operation that prints does no more than send its texts in turn.
Closing the table brings the former output back, and the table prints as the text. -/
theorem output_captured [IsPreorder η R] (hi : i.mnemonic = .outputStream)
    (hstream : operands.getD 0 0 = 3) (hplace : (operands.getD 1 0).toNat = table)
    (opens : executeDisplay i operands s = .ok o t) (run : Prints P R t text u)
    (count : text.length ≤ 65535) (room : table + 2 + text.length ≤ s.core.memory.bytes.size)
    (apart : ∀ b, P b → ¬ TableByte table text.length b) :
    Captured P R s table text u ∧ Collects u table text ∧
      (∀ j ops script family, script? j ops = some script → j.mnemonic.family? = some family →
        executeFamily family j ops u = (do Machine.speak script; leave j ops) u ∧
          Prints P R t (text ++ spoken script u) (ending (Machine.speak script u))) ∧
      (∀ j ops, j.mnemonic = .outputStream → ops.getD 0 0 = -3 →
        executeDisplay j ops u = .ok .proceeded (u.withTables s.streams.tables)) ∧
      Resumes (fun b => P b ∨ TableByte table text.length b) s (u.withTables s.streams.tables) ∧
      ∀ (w : Machine η) j ops, HoldsText w.core.memory table text → j.mnemonic = .printTable →
        (ops.getD 0 0).toNat = table + 2 → (ops.getD 1 0).toNat = text.length →
        ops.getD 2 1 = 1 → executeDisplay j ops w = print (text.map Zscii.shown) w := by
  have h : Captured P R s table text u := run.captured (captured_of_open hi hstream hplace opens) count room apart
  refine ⟨h, collects_of_holds h.tables h.holds, ?_, ?_, h.resumes, ?_⟩
  · intro j ops script family hs hf
    exact ⟨congrFun (executeFamily_of_script hs hf) u, run.speak script⟩
  · intro j ops hj hclose
    rw [executeDisplay_close hj hclose, h.tables]
    rfl
  · intro w j ops hw hj ha hn hrows
    exact executeDisplay_printTable hj hw ha hn hrows

end Runs

def tabledStory : Memory :=
  -- A table at 64 is open and holds an `a`.
  ⟨⟨5 :: (List.replicate 64 0 ++ 1 :: 97 :: List.replicate 29 0)⟩, by simp, by simp⟩

def tabledMachine : Machine Playback :=
  { core := ⟨tabledStory, tabledStory, [{ pc := 80 }]⟩, version := 5, streams := { tables := [64] },
    host := {} }

def streamInstruction : Instruction :=
  { address := 80, descriptor := .normal 5 0xF3, operands := [], store := none, branch := none,
    text := none, next := 84 }

theorem holdsText_tabledStory : HoldsText tabledStory 64 ['a'] := by
  refine ⟨⟨1, rfl, rfl⟩, ?_⟩
  intro k c hk
  cases k with
  | zero =>
    cases hk
    exact ⟨97, rfl, rfl⟩
  | succ k => cases hk

theorem output_captured_nested :
    ∃ t u, executeDisplay streamInstruction [3, 70] tabledMachine = .ok .proceeded t ∧
      Prints (fun _ => False) Eq t ['ä', '\n', '€'] u ∧
      HoldsText u.core.memory 70 ['ä', '\n', '€'] ∧ u.host = tabledMachine.host ∧
      executeDisplay streamInstruction [-3] u = .ok .proceeded (u.withTables [64]) ∧
      HoldsText u.core.memory 64 ['a'] := by
  let t := ending (executeDisplay streamInstruction [3, 70] tabledMachine)
  let u := ending (output ['\n', '€'] (ending (output ['ä'] t)))
  have opens : executeDisplay streamInstruction [3, 70] tabledMachine = .ok .proceeded t := rfl
  have run : Prints (fun _ => False) Eq t ['ä', '\n', '€'] u := (Prints.start.part ['ä']).part ['\n', '€']
  obtain ⟨hcaptured, -, -, hclose, hresumes, -⟩ :=
    output_captured rfl rfl rfl opens run (by decide) (by decide) (by simp)
  refine ⟨t, u, opens, run, hcaptured.holds, hcaptured.host.symm, hclose _ _ rfl rfl, ?_⟩
  refine (hresumes.table 64 [] ['a'] rfl holdsText_tabledStory ?_).1
  rintro b (nowhere | ⟨hlow, -⟩) ⟨-, hhigh⟩
  · exact nowhere
  · change 70 ≤ b at hlow
    change b < 67 at hhigh
    omega

end Machine

end ZMachine
