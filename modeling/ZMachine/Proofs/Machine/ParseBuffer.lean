import ZMachine.Proofs.Checked.Tables
import ZMachine.Proofs.Machine.TextBuffer

namespace ZMachine

def joins (seps : List UInt8) (b : UInt8) : Bool := b ≠ 32 ∧ b ∉ seps

/-- The words of a text, each with where it starts: spaces are passed over, a separator is a word,
and of other bytes a word has as many as follow each other. -/
def wordsAt (seps : List UInt8) (i : Nat) : List UInt8 → List (Nat × List UInt8)
  | [] => []
  | b :: rest =>
    if b = 32 then wordsAt seps (i + 1) rest
    else if b ∈ seps then (i, [b]) :: wordsAt seps (i + 1) rest
    else
      (i, b :: rest.takeWhile (joins seps)) ::
        wordsAt seps (i + 1 + (rest.takeWhile (joins seps)).length) (rest.dropWhile (joins seps))
termination_by text => text.length
decreasing_by
  · simp
  · simp
  · exact Nat.lt_succ_of_le (List.length_dropWhile_le ..)

section Words

variable {seps w rest text : List UInt8} {i run s : Nat}

theorem wordsFrom_run (hw : ∀ b ∈ w, joins seps b) :
    wordsFrom seps i run (w ++ rest) = wordsFrom seps (i + w.length) (run + w.length) rest := by
  induction w generalizing i run with
  | nil => rfl
  | cons b w ih =>
    obtain ⟨hb, hw⟩ := List.forall_mem_cons.1 hw
    have hjoins : ¬ (b = 32 ∨ b ∈ seps) := by simpa [joins] using hb
    rw [List.cons_append, wordsFrom, if_neg hjoins, ih hw, List.length_cons]
    congr 1 <;> omega

theorem wordsFrom_finish (hrun : run ≠ 0) (hrest : ∀ b ∈ rest.head?, joins seps b = false) :
    wordsFrom seps i run rest = (i - run, run) :: wordsFrom seps i 0 rest := by
  cases rest with
  | nil => simp [wordsFrom, hrun]
  | cons b rest =>
    have hb : b = 32 ∨ b ∈ seps := by
      have := hrest b rfl
      simpa [joins, or_iff_not_imp_left] using this
    simp [wordsFrom, hrun, hb]

theorem wordsFrom_eq_map (text : List UInt8) :
    wordsFrom seps i 0 text = (wordsAt seps i text).map fun p => (p.1, p.2.length) := by
  fun_induction wordsAt seps i text with
  | case1 i => rfl
  | case2 i rest ih => simp [wordsFrom, ih]
  | case3 i b rest hb hsep ih => simp [wordsFrom, hb, hsep, ih]
  | case4 i b rest hb hsep ih =>
    have hword : ∀ x ∈ b :: rest.takeWhile (joins seps), joins seps x := by
      rw [List.forall_mem_cons]
      exact ⟨by simp [joins, hb, hsep], fun x hx => List.mem_takeWhile_imp hx⟩
    have hrest : ∀ x ∈ (rest.dropWhile (joins seps)).head?, joins seps x = false := by
      intro x hx
      have := List.head?_dropWhile_not (joins seps) rest
      rw [Option.mem_def.1 hx] at this
      simpa using this
    -- the scan counts through the word and enters it at the byte that ends it
    calc wordsFrom seps i 0 (b :: rest)
        = wordsFrom seps i 0 (b :: rest.takeWhile (joins seps) ++ rest.dropWhile (joins seps)) := by
          rw [List.cons_append, List.takeWhile_append_dropWhile]
      _ = _ := by
          rw [wordsFrom_run hword, wordsFrom_finish (by simp) hrest, List.map_cons, List.length_cons,
            Nat.zero_add, Nat.add_sub_cancel, ← ih, Nat.add_assoc, Nat.add_comm 1]

theorem wordsAt_infix (h : (s, w) ∈ wordsAt seps i text) :
    w ≠ [] ∧ ∃ before after, text = before ++ (w ++ after) ∧ s = i + before.length := by
  fun_induction wordsAt seps i text with
  | case1 i => cases h
  | case2 i rest ih =>
    obtain ⟨hw, before, after, rfl, rfl⟩ := ih h
    refine ⟨hw, 32 :: before, after, rfl, ?_⟩
    rw [List.length_cons]
    omega
  | case3 i b rest hb hsep ih =>
    obtain hhere | hlater := List.mem_cons.1 h
    · cases hhere
      exact ⟨by simp, [], rest, rfl, rfl⟩
    · obtain ⟨hw, before, after, rfl, rfl⟩ := ih hlater
      refine ⟨hw, b :: before, after, rfl, ?_⟩
      rw [List.length_cons]
      omega
  | case4 i b rest hb hsep ih =>
    obtain hhere | hlater := List.mem_cons.1 h
    · cases hhere
      refine ⟨by simp, [], rest.dropWhile (joins seps), ?_, rfl⟩
      rw [List.nil_append, List.cons_append, List.takeWhile_append_dropWhile]
    · obtain ⟨hw, before, after, hrest, rfl⟩ := ih hlater
      refine ⟨hw, b :: rest.takeWhile (joins seps) ++ before, after, ?_, ?_⟩
      · rw [List.append_assoc, ← hrest, List.cons_append, List.takeWhile_append_dropWhile]
      · rw [List.length_append, List.length_cons]
        omega

theorem length_of_word (h : (s, w) ∈ wordsAt seps 0 text) :
    s < text.length ∧ w.length ≤ text.length := by
  obtain ⟨hw, before, after, rfl, rfl⟩ := wordsAt_infix h
  have := List.length_pos_of_ne_nil hw
  simp only [List.length_append]
  omega

end Words

namespace Machine

open Memory (ChangesAt ChangesWithin)

/-- An entry of a parse buffer at `a`: no address, a length and a position. -/
structure Entry (m : Memory) (a : Nat) (length position : UInt8) : Prop where
  address : m.word a = .ok 0
  length : m.byte (a + 2) = .ok length
  position : m.byte (a + 3) = .ok position

section ParseBuffer

variable {version c : UInt8} {buffer parse a : Nat} {m n : Memory} {text seps : List UInt8}
  {words : List (Nat × Nat)}

theorem Entry.of_changesAt {width k : Nat} {l p : UInt8} (h : Entry m k l p) (hc : ChangesAt a width m n)
    (apart : k + 4 ≤ a) : Entry n k l p := by
  constructor
  · rw [hc.word (by omega), h.address]
  · rw [hc.byte _ (by omega), h.length]
  · rw [hc.byte _ (by omega), h.position]

def storeEntry (a : Nat) (l p : UInt8) : Action Memory Unit := do
  Memory.setWord a 0
  Memory.setByte (a + 2) l
  Memory.setByte (a + 3) p

theorem storeEntries_cons (offset a s l : Nat) (words : List (Nat × Nat)) :
    storeEntries offset a ((s, l) :: words) =
      storeEntry a (UInt8.ofNat l) (UInt8.ofNat (s + offset)) >>= fun _ =>
        storeEntries offset (a + 4) words := by
  simp only [storeEntries, storeEntry, bind_assoc]

theorem storeEntry_ok (l p : UInt8) (room : a + 4 ≤ m.bytes.size) :
    ∃ n, storeEntry a l p m = .ok () n ∧ ChangesAt a 4 m n ∧ Entry n a l p := by
  obtain ⟨m₁, hset₁, hc₁, haddress⟩ := Memory.setWord_ok (m := m) (a := a) 0 (by omega)
  have hsize₁ : m₁.bytes.size = m.bytes.size := hc₁.size
  obtain ⟨m₂, hset₂, hc₂, hlength⟩ := Memory.setByte_ok (m := m₁) (a := a + 2) l (by omega)
  have hsize₂ : m₂.bytes.size = m₁.bytes.size := hc₂.size
  obtain ⟨n, hset₃, hc₃, hposition⟩ := Memory.setByte_ok (m := m₂) (a := a + 3) p (by omega)
  refine ⟨n, ?_, ⟨hc₃.size.trans (hsize₂.trans hsize₁), fun x hx => ?_⟩, ?_⟩
  · rw [storeEntry, bind_ok _ hset₁, bind_ok _ hset₂, hset₃]
  · rw [hc₃.byte x (by omega), hc₂.byte x (by omega), hc₁.byte x (by omega)]
  · constructor
    · rw [hc₃.word (by omega), hc₂.word (by omega), haddress]
    · rw [hc₃.byte _ (by omega), hlength]
    · exact hposition

theorem storeEntries_ok (offset : Nat) (room : a + 4 * words.length ≤ m.bytes.size) :
    ∃ n, storeEntries offset a words m = .ok () n ∧ ChangesAt a (4 * words.length) m n ∧
      ∀ i s l, words[i]? = some (s, l) →
        Entry n (a + 4 * i) (UInt8.ofNat l) (UInt8.ofNat (s + offset)) := by
  induction words generalizing m a with
  | nil => exact ⟨m, rfl, ⟨rfl, fun _ _ => rfl⟩, by simp⟩
  | cons word rest ih =>
    obtain ⟨s, l⟩ := word
    rw [List.length_cons] at room
    obtain ⟨m₁, hset, hc₁, hentry⟩ := storeEntry_ok (m := m) (a := a) (UInt8.ofNat l)
      (UInt8.ofNat (s + offset)) (by omega)
    have hsize : m₁.bytes.size = m.bytes.size := hc₁.size
    obtain ⟨n, hrest, hc₂, hentries⟩ := ih (m := m₁) (a := a + 4) (by omega)
    refine ⟨n, ?_, ⟨hc₂.size.trans hc₁.size, fun x hx => ?_⟩, ?_⟩
    · rw [storeEntries_cons, bind_ok _ hset, hrest]
    · rw [List.length_cons] at hx
      rw [hc₂.byte x (by omega), hc₁.byte x (by omega)]
    · intro i s' l' hi
      cases i with
      | zero =>
        cases hi
        exact hentry.of_changesAt hc₂ (by omega)
      | succ i =>
        rw [show a + 4 * (i + 1) = a + 4 + 4 * i by omega]
        exact hentries i s' l' hi

theorem tokenise_enters (countOnly : Bool) {kept : List (Nat × Nat)}
    (htext : bufferText version m buffer = .ok text) (hseps : separators m = .ok seps)
    (hc : m.byte parse = .ok c) (hwords : (splitWords text seps).take c.toNat = words)
    (hkept : (if countOnly then [] else words) = kept)
    (room : parse + 2 + 4 * kept.length ≤ m.bytes.size) :
    ∃ n, tokenise version buffer parse countOnly m = .ok () n ∧
      ChangesAt (parse + 1) (1 + 4 * kept.length) m n ∧
      n.byte (parse + 1) = .ok (UInt8.ofNat words.length) ∧
      ∀ i s l, kept[i]? = some (s, l) →
        Entry n (parse + 2 + 4 * i) (UInt8.ofNat l) (UInt8.ofNat (s + textStart version)) := by
  obtain ⟨m₁, hset, hc₁, hcount⟩ := Memory.setByte_ok (m := m) (a := parse + 1)
    (UInt8.ofNat words.length) (by omega)
  have hroom : parse + 2 + 4 * kept.length ≤ m₁.bytes.size := by
    rw [hc₁.size]
    exact room
  obtain ⟨n, hstore, hc₂, hentries⟩ := storeEntries_ok (textStart version) hroom
  refine ⟨n, ?_, ⟨hc₂.size.trans hc₁.size, fun x hx => ?_⟩, ?_, hentries⟩
  · rw [tokenise, bind_ok _ (reading_ok (f := fun m => bufferText version m buffer) htext),
      bind_ok _ (reading_ok hseps), bind_ok _ (reading_ok (f := (Memory.byte · parse)) hc), hwords,
      bind_ok _ hset]
    cases countOnly with
    | true =>
      subst hkept
      exact hstore
    | false =>
      subst hkept
      exact hstore
  · rw [hc₂.byte x (by omega), hc₁.byte x (by omega)]
  · rw [hc₂.byte _ (by omega), hcount]

theorem tokenise_ok (htext : bufferText version m buffer = .ok text) (hseps : separators m = .ok seps)
    (hc : m.byte parse = .ok c) (hwords : (splitWords text seps).take c.toNat = words)
    (room : parse + 2 + 4 * c.toNat ≤ m.bytes.size) :
    ∃ n, tokenise version buffer parse false m = .ok () n ∧
      ChangesWithin (fun x => parse + 1 ≤ x ∧ x < parse + 2 + 4 * c.toNat) m n ∧
      n.byte (parse + 1) = .ok (UInt8.ofNat words.length) ∧
      ∀ i s l, words[i]? = some (s, l) →
        Entry n (parse + 2 + 4 * i) (UInt8.ofNat l) (UInt8.ofNat (s + textStart version)) := by
  have hlen : words.length ≤ c.toNat := by
    rw [← hwords]
    exact List.length_take_le ..
  obtain ⟨n, hrun, hchanges, hcount, hentries⟩ := tokenise_enters false htext hseps hc
    hwords rfl (by simp only [Bool.false_eq_true, ↓reduceIte]; omega)
  simp only [Bool.false_eq_true, ↓reduceIte] at hchanges hentries
  refine ⟨n, hrun, hchanges.within fun x hx hx' => ?_, hcount, hentries⟩
  omega

theorem slice_of_word {s : Nat} {w : List UInt8} (h : m.Shows a text) (hw : (s, w) ∈ wordsAt seps 0 text) :
    m.slice (a + s) w.length = .ok w := by
  obtain ⟨hne, before, after, rfl, rfl⟩ := wordsAt_infix hw
  obtain ⟨-, hrest⟩ := Memory.shows_append.1 h
  obtain ⟨hshows, -⟩ := Memory.shows_append.1 hrest
  rw [Nat.zero_add]
  apply Memory.slice_of_shows hshows
  cases w with
  | nil => exact absurd rfl hne
  | cons b w => exact (Memory.byte_inside hshows.1).le

theorem toNat_position {s : Nat} (hs : s < 255) (h : version ≤ 4 ∨ s ≠ 254) :
    (UInt8.ofNat (s + textStart version)).toNat = s + textStart version := by
  apply UInt8.toNat_ofNat_of_lt'
  change s + textStart version < 256
  by_cases hv : version ≤ 4
  · rw [textStart_terminated hv]
    omega
  · have hne : s ≠ 254 := h.resolve_left hv
    rw [textStart_counted hv]
    omega

/-- The words are entered in order as far as there is room, and every position that fits its byte
leads to the word. -/
theorem tokenise_points_at_words {version c : UInt8} {buffer parse : Nat} {m : Memory}
    {text seps : List UInt8} (htext : bufferText version m buffer = .ok text)
    (hseps : separators m = .ok seps) (hc : m.byte parse = .ok c)
    (room : parse + 2 + 4 * c.toNat ≤ m.size)
    (apart : buffer + textStart version + text.length ≤ parse + 1 ∨
      parse + 2 + 4 * c.toNat ≤ buffer + textStart version) :
    ∃ n, tokenise version buffer parse false m = .ok () n ∧
      ChangesWithin (fun x => parse + 1 ≤ x ∧ x < parse + 2 + 4 * c.toNat) m n ∧
      (∃ count, n.byte (parse + 1) = .ok count ∧
        count.toNat = min c.toNat (wordsAt seps 0 text).length) ∧
      ∀ i s w, i < c.toNat → (wordsAt seps 0 text)[i]? = some (s, w) →
        ∃ l p, Entry n (parse + 2 + 4 * i) l p ∧ l.toNat = w.length ∧
          (version ≤ 4 ∨ s ≠ 254 → n.slice (buffer + p.toNat) l.toNat = .ok w) := by
  have hwords : splitWords text seps = (wordsAt seps 0 text).map fun p => (p.1, p.2.length) :=
    wordsFrom_eq_map text
  obtain ⟨n, hrun, hchanges, hcount, hentries⟩ := tokenise_ok htext hseps hc rfl room
  refine ⟨n, hrun, hchanges, ⟨_, hcount, ?_⟩, ?_⟩
  · have hlt := c.toNat_lt
    rw [hwords, List.length_take, List.length_map, UInt8.toNat_ofNat_of_lt' (show _ < 256 by omega)]
  · intro i s w hi hword
    have hmem : (s, w) ∈ wordsAt seps 0 text := List.mem_of_getElem? hword
    have hentry : ((splitWords text seps).take c.toNat)[i]? = some (s, w.length) := by
      rw [List.getElem?_take_of_lt hi, hwords, List.getElem?_map, hword]
      rfl
    have hend : s < text.length ∧ w.length ≤ text.length := length_of_word hmem
    have hlen := Checked.bufferText_length htext
    have hl : (UInt8.ofNat w.length).toNat = w.length := UInt8.toNat_ofNat_of_lt' (show _ < 256 by omega)
    refine ⟨_, _, hentries i s w.length hentry, hl, fun hs => ?_⟩
    have htext' : n.Shows (buffer + textStart version) text := by
      apply (shows_of_bufferText htext).congr
      intro x hx hx'
      apply hchanges.byte
      omega
    rw [toNat_position (by omega) hs, hl, Nat.add_comm s, ← Nat.add_assoc]
    exact slice_of_word htext' hmem

end ParseBuffer

def parseStory (text : List UInt8) (h : text.length ≤ 255) : Memory :=
  -- A story with a comma for its only separator, a text in a buffer at 64 and room for five entries
  -- behind it.
  ⟨⟨5 :: (List.replicate 8 0 ++ 60 :: List.replicate 50 0) ++ [1, 44, 0, 0] ++
    (255 :: UInt8.ofNat text.length :: text) ++ 5 :: List.replicate 21 0⟩,
    by simp, by simp; omega⟩

theorem bufferText_parseStory {text : List UInt8} (h : text.length ≤ 255) (hz : ∀ x ∈ text, x ≠ 0) :
    bufferText 5 (parseStory text h) 64 = .ok text := by
  have hshows : (parseStory text h).Shows 64 (255 :: textLayout 5 text) :=
    Memory.shows_of_toList (5 :: (List.replicate 8 0 ++ 60 :: List.replicate 50 0) ++ [1, 44, 0, 0])
      (5 :: List.replicate 21 0) (by simp [parseStory, textLayout])
  exact bufferText_of_shows hshows.1 hshows.2 hz h

def commaStory : Memory := parseStory [97, 98, 44, 32, 99, 100] (by decide)

theorem tokenise_points_at_words_comma :
    bufferText 5 commaStory 64 = .ok [97, 98, 44, 32, 99, 100] ∧ separators commaStory = .ok [44] ∧
      ∃ n, tokenise 5 64 72 false commaStory = .ok () n ∧
        (∃ count, n.byte 73 = .ok count ∧ count.toNat = 3) ∧
        ∃ l p, Entry n 82 l p ∧ n.slice (64 + p.toNat) l.toNat = .ok [99, 100] := by
  have htext : bufferText 5 commaStory 64 = .ok [97, 98, 44, 32, 99, 100] :=
    bufferText_parseStory _ (by simp)
  have hseps : separators commaStory = .ok [44] := by
    apply ok_of_toOption
    decide +kernel
  have hwords : wordsAt [44] 0 [97, 98, 44, 32, 99, 100] = [(0, [97, 98]), (2, [44]), (4, [99, 100])] := by
    decide +kernel
  obtain ⟨n, hrun, -, hcount, hentries⟩ := @tokenise_points_at_words 5 5 64 72 commaStory _ _ htext
    hseps rfl (by decide +kernel) (by decide)
  rw [hwords] at hcount hentries
  obtain ⟨l, p, hentry, -, hslice⟩ := hentries 2 4 [99, 100] (by decide) rfl
  exact ⟨htext, hseps, n, hrun, hcount, l, p, hentry, hslice (by decide)⟩

def farText : List UInt8 := 120 :: (List.replicate 253 32 ++ [120])

def farStory : Memory := parseStory farText (by decide +kernel)

theorem tokenise_wraps_position :
    bufferText 5 farStory 64 = .ok farText ∧ separators farStory = .ok [44] ∧
      (wordsAt [44] 0 farText)[1]? = some (254, [120]) ∧
      ∃ n, tokenise 5 64 321 false farStory = .ok () n ∧ n.byte 322 = .ok 2 ∧ Entry n 327 1 0 ∧
        n.slice (64 + 0) 1 = .ok [255] := by
  have htext : bufferText 5 farStory 64 = .ok farText := bufferText_parseStory _ (by decide +kernel)
  have hseps : separators farStory = .ok [44] := by
    apply ok_of_toOption
    decide +kernel
  have hc : farStory.byte 321 = .ok 5 := by
    apply ok_of_toOption
    decide +kernel
  have hcapacity : farStory.byte 64 = .ok 255 := by
    apply ok_of_toOption
    decide +kernel
  have hsplit : (splitWords farText [44]).take 5 = [(0, 1), (254, 1)] := by decide +kernel
  obtain ⟨n, hrun, hchanges, hcount, hentries⟩ := tokenise_ok htext hseps hc hsplit (by decide +kernel)
  refine ⟨htext, hseps, by decide +kernel, n, hrun, hcount, hentries 1 254 1 rfl, ?_⟩
  have hshows : n.Shows 64 [255] := ⟨by rw [hchanges.byte 64 (by decide), hcapacity], trivial⟩
  exact Memory.slice_of_shows hshows (Memory.byte_inside hshows.1).le

end Machine

end ZMachine
