import ZMachine.Proofs.Text.Extent
import ZMachine.Proofs.Text.Tokens

namespace ZMachine

section Traversal

variable {ε α β : Type} {f : α → Except ε β} {xs : List α}

theorem mapM_eq_ok_iff {ys : List β} : xs.mapM f = .ok ys ↔ List.Forall₂ (fun x y => f x = .ok y) xs ys := by
  induction xs generalizing ys with
  | nil => simp [pure, Except.pure, eq_comm]
  | cons x xs ih =>
    rw [List.mapM_cons]
    constructor
    · intro h
      obtain ⟨y, hy, h⟩ := ok_of_bind_except h
      obtain ⟨rest, hrest, h⟩ := ok_of_bind_except h
      cases h
      exact .cons hy (ih.1 hrest)
    · rintro (_ | ⟨hy, hrest⟩)
      rw [hy, ih.2 hrest]
      rfl

theorem exists_ok_of_mapM {ys : List β} {x : α} (h : xs.mapM f = .ok ys) (hx : x ∈ xs) : ∃ y, f x = .ok y := by
  rw [mapM_eq_ok_iff] at h
  induction h with
  | nil => cases hx
  | cons hy _ ih =>
    obtain rfl | hx := List.mem_cons.1 hx
    · exact ⟨_, hy⟩
    · exact ih hx

theorem mapM_eq_error_iff {e : ε} : xs.mapM f = .error e ↔
    ∃ before x after, xs = before ++ x :: after ∧ (∀ b ∈ before, ∃ y, f b = .ok y) ∧ f x = .error e := by
  induction xs with
  | nil => simp [pure, Except.pure]
  | cons x xs ih =>
    rw [List.mapM_cons]
    constructor
    · intro h
      obtain hx | ⟨y, hx, h⟩ := error_of_bind_except h
      · exact ⟨[], x, xs, rfl, by simp, hx⟩
      · obtain hxs | ⟨ys, -, h⟩ := error_of_bind_except h
        · obtain ⟨before, x', after, rfl, hbefore, hx'⟩ := ih.1 hxs
          exact ⟨x :: before, x', after, rfl, by simpa [hx] using hbefore, hx'⟩
        · cases h
    · rintro ⟨before, x', after, hsplit, hbefore, hx'⟩
      cases before with
      | nil =>
        cases hsplit
        rw [hx']
        rfl
      | cons b before =>
        cases hsplit
        obtain ⟨y, hy⟩ := hbefore x List.mem_cons_self
        have hxs := ih.2 ⟨before, x', after, rfl, fun b hb => hbefore b (List.mem_cons_of_mem x hb), hx'⟩
        rw [hy, hxs]
        rfl

end Traversal

namespace Token

variable {A : Alphabets} {expand : Except Fault (Nat → Except Fault (List Char))} {e : Fault}
  {tok : Token} {zs : List Zchar} {t : List Char}

/-- The text of a token, where `D` tells those of abbreviations. -/
inductive Means (A : Alphabets) (D : Nat → List Char → Prop) : Token → List Char → Prop where
  | space : Means A D .space [' ']
  | abbreviation {n : Nat} {t : List Char} (h : D n t) : Means A D (.abbreviation n) t
  | code (zscii : UInt16) : Means A D (.code zscii) (Zscii.toChar? zscii).toList
  | letter (r : Fin 3) (z : Zchar) : Means A D (.letter r z) [A.char r z]

def Tells (A : Alphabets) (D : Nat → List Char → Prop) (zs : List Zchar) (t : List Char) : Prop :=
  ∃ toks texts, Tokenised zs toks ∧ List.Forall₂ (Means A D) toks texts ∧ t = texts.flatten

theorem meaning_eq_ok_iff : meaning A expand tok = .ok t ↔ Means A (fun n t => (do (← expand) n) = .ok t) tok t := by
  constructor
  · intro h
    cases tok with
    | space =>
      cases h
      exact .space
    | abbreviation n => exact .abbreviation h
    | code zscii =>
      cases h
      exact .code zscii
    | letter r z =>
      cases h
      exact .letter r z
  · intro h
    cases h with
    | space => rfl
    | abbreviation h => exact h
    | code => rfl
    | letter => rfl

theorem spell_eq_ok_iff (hexpand : Refers zs → ∃ f, expand = .ok f) :
    spell A expand (.character 0) zs = .ok t ↔ Tells A (fun n t => (do (← expand) n) = .ok t) zs t := by
  have hmeans : (fun tok t => meaning A expand tok = .ok t) = Means A (fun n t => (do (← expand) n) = .ok t) := by
    funext tok t
    exact propext meaning_eq_ok_iff
  constructor
  · intro h
    obtain ⟨toks, htoks⟩ := exists_tokenised zs
    rw [spell_tokenised htoks hexpand] at h
    obtain ⟨texts, htexts, rfl⟩ := ok_of_map h
    rw [mapM_eq_ok_iff, hmeans] at htexts
    exact ⟨toks, texts, htoks, htexts, rfl⟩
  · rintro ⟨toks, texts, htoks, htexts, rfl⟩
    rw [← hmeans, ← mapM_eq_ok_iff] at htexts
    rw [spell_tokenised htoks hexpand, htexts]
    rfl

theorem spell_plain_eq_ok_iff :
    spell A (.error e) (.character 0) zs = .ok t ↔ ¬ Refers zs ∧ Tells A (fun _ _ => False) zs t := by
  by_cases hrefers : Refers zs
  · rw [spell_of_refers hrefers]
    exact ⟨nofun, fun h => absurd hrefers h.1⟩
  · have hno : (fun (n : Nat) (t : List Char) => (do
        let f ← (Except.error e : Except Fault (Nat → Except Fault (List Char)))
        f n) = .ok t) = fun _ _ => False := by
      funext n t
      exact propext ⟨nofun, nofun⟩
    rw [spell_eq_ok_iff fun h => absurd h hrefers, hno]
    exact (and_iff_right hrefers).symm

end Token

namespace Memory

open Token

variable {m : Memory} {A : Alphabets} {a n : Nat} {zs : List Zchar} {t : List Char} {e : Fault}
  {expand : Except Fault (Nat → Except Fault (List Char))}

/-- The Z-characters of the string at `a`, through its first word with the end bit. -/
def HasZchars (m : Memory) (a : Nat) (zs : List Zchar) : Prop :=
  ∃ ws, m.Stores a ws ∧ Terminated ws ∧ ws.length ≤ 4096 ∧ zs = ws.flatMap unpackWord

/-- All the words of the string at `a` that are followed lie in memory. -/
def Inside (m : Memory) (a : Nat) : Prop := m.Unended a 4096 ∨ ∃ zs, m.HasZchars a zs

def AbbreviationAt (m : Memory) (n a : Nat) : Prop :=
  ∃ w, m.word (m.abbreviationsTable.toNat + 2 * n) = .ok w ∧ a = 2 * w.toNat

def Abbreviates (m : Memory) (A : Alphabets) (n : Nat) (t : List Char) : Prop :=
  ∃ a zs, m.AbbreviationAt n a ∧ m.HasZchars a zs ∧ ¬ Refers zs ∧ Tells A (fun _ _ => False) zs t

/-- The string of abbreviation `n` does not end, or names an abbreviation. -/
def Flawed (m : Memory) (n : Nat) : Prop :=
  ∃ a, m.AbbreviationAt n a ∧ (m.Unended a 4096 ∨ ∃ zs, m.HasZchars a zs ∧ Refers zs)

theorem spellAt_of_zchars (h : m.HasZchars a zs) : m.spellAt A a expand = spell A expand (.character 0) zs := by
  obtain ⟨ws, hstores, hterm, hlen, rfl⟩ := h
  rw [spellAt, stringWords_iff.2 ⟨hstores, hterm, hlen⟩]
  rfl

theorem spellAt_of_unended (h : m.Unended a 4096) :
    m.spellAt A a expand = .error (.malformedText (.unterminated a)) := by
  rw [spellAt, stringWords, maxStringWords, stringWordsFrom_of_unended h]
  rfl

theorem zchars_or_error (m : Memory) (a : Nat) :
    (∃ zs, m.HasZchars a zs) ∨ ∃ e, m.stringWords a = .error e := by
  cases hws : m.stringWords a with
  | error e => exact .inr ⟨e, rfl⟩
  | ok ws =>
    obtain ⟨hstores, hterm, hlen⟩ := stringWords_iff.1 hws
    exact .inl ⟨_, ws, hstores, hterm, hlen, rfl⟩

theorem not_malformed_of_leaves {why : TextFlaw} : ¬ m.Leaves a (.malformedText why) := by
  rintro ⟨b, width, -, -, h⟩
  cases h

theorem unended_of_malformed {why : TextFlaw} (ha : a < 2 ^ 32) (h : m.stringWords a = .error (.malformedText why)) :
    m.Unended a 4096 := by
  obtain ⟨hun, -⟩ | hleaves := stringWords_error ha h
  · exact hun
  · exact absurd hleaves not_malformed_of_leaves

theorem abbreviation_of_at (h : m.AbbreviationAt n a) :
    m.abbreviation A n = m.spellAt A a (.error (.malformedText (.nestedAbbreviation a))) := by
  obtain ⟨w, hw, rfl⟩ := h
  rw [abbreviation, hw, Nat.mul_comm]
  rfl

theorem abbreviation_cases (m : Memory) (n : Nat) :
    (∃ a < 2 ^ 32, m.AbbreviationAt n a) ∨ ∃ e, (∀ why, e ≠ .malformedText why) ∧ ∀ A, m.abbreviation A n = .error e := by
  unfold abbreviation
  cases hw : m.word (m.abbreviationsTable.toNat + 2 * n) with
  | ok w =>
    have hlt := w.toNat_lt
    exact .inl ⟨2 * w.toNat, by omega, w, hw, rfl⟩
  | error e =>
    refine .inr ⟨e, fun why he => ?_, fun A => rfl⟩
    subst he
    simp only [word, outside] at hw
    split at hw
    · cases hw
    · split at hw <;> cases hw

theorem abbreviation_eq_ok_iff : m.abbreviation A n = .ok t ↔ m.Abbreviates A n t := by
  constructor
  · intro h
    obtain ⟨a, -, ha⟩ | ⟨e, -, he⟩ := abbreviation_cases m n
    · rw [abbreviation_of_at ha] at h
      obtain ⟨zs, hzs⟩ | ⟨e, he⟩ := zchars_or_error m a
      · rw [spellAt_of_zchars hzs, spell_plain_eq_ok_iff] at h
        exact ⟨a, zs, ha, hzs, h⟩
      · rw [spellAt, he] at h
        cases h
    · rw [he] at h
      cases h
  · rintro ⟨a, zs, ha, hzs, htext⟩
    rw [abbreviation_of_at ha, spellAt_of_zchars hzs, spell_plain_eq_ok_iff]
    exact htext

theorem abbreviation_malformed_iff : (∃ why, m.abbreviation A n = .error (.malformedText why)) ↔ m.Flawed n := by
  constructor
  · rintro ⟨why, h⟩
    obtain ⟨a, hlt, ha⟩ | ⟨e, hne, he⟩ := abbreviation_cases m n
    · refine ⟨a, ha, ?_⟩
      rw [abbreviation_of_at ha] at h
      obtain ⟨zs, hzs⟩ | ⟨e, he⟩ := zchars_or_error m a
      · rw [spellAt_of_zchars hzs] at h
        exact .inr ⟨zs, hzs, (refers_of_spell h).2⟩
      · rw [spellAt, he] at h
        cases h
        exact .inl (unended_of_malformed hlt he)
    · rw [he] at h
      cases h
      exact absurd rfl (hne why)
  · rintro ⟨a, ha, hun | ⟨zs, hzs, hrefers⟩⟩
    · exact ⟨_, (abbreviation_of_at ha).trans (spellAt_of_unended hun)⟩
    · refine ⟨.nestedAbbreviation a, ?_⟩
      rw [abbreviation_of_at ha, spellAt_of_zchars hzs, spell_of_refers hrefers]

theorem text_of_tokenised {toks : List Token} (hA : Alphabets.ofMemory m = .ok A) (hzs : m.HasZchars a zs)
    (htoks : Tokenised zs toks) :
    m.text a = List.flatten <$> toks.mapM (meaning A (.ok (m.abbreviation A))) := by
  rw [text, hA]
  change m.spellAt A a _ = _
  rw [spellAt_of_zchars hzs, spell_tokenised htoks fun _ => ⟨_, rfl⟩]

theorem text_of_unended (hA : Alphabets.ofMemory m = .ok A) (h : m.Unended a 4096) :
    m.text a = .error (.malformedText (.unterminated a)) := by
  rw [text, hA]
  exact spellAt_of_unended h

theorem text_of_error (hA : Alphabets.ofMemory m = .ok A) (h : m.stringWords a = .error e) : m.text a = .error e := by
  rw [text, hA]
  change m.spellAt A a _ = _
  rw [spellAt, h]
  rfl

theorem abbreviates_eq : (fun n t => m.abbreviation A n = .ok t) = m.Abbreviates A := by
  funext n t
  exact propext abbreviation_eq_ok_iff

theorem text_eq_ok_iff (hA : Alphabets.ofMemory m = .ok A) :
    m.text a = .ok t ↔ ∃ zs, m.HasZchars a zs ∧ Tells A (m.Abbreviates A) zs t := by
  have htells {zs : List Zchar} (hzs : m.HasZchars a zs) : m.text a = .ok t ↔ Tells A (m.Abbreviates A) zs t := by
    rw [text, hA, ← abbreviates_eq]
    change m.spellAt A a _ = _ ↔ _
    rw [spellAt_of_zchars hzs]
    exact spell_eq_ok_iff fun _ => ⟨_, rfl⟩
  constructor
  · intro h
    obtain ⟨zs, hzs⟩ | ⟨e, he⟩ := zchars_or_error m a
    · exact ⟨zs, hzs, (htells hzs).1 h⟩
    · rw [text_of_error hA he] at h
      cases h
  · rintro ⟨zs, hzs, h⟩
    exact (htells hzs).2 h

theorem text_eq_error_iff {toks : List Token} (hA : Alphabets.ofMemory m = .ok A) (hzs : m.HasZchars a zs)
    (htoks : Tokenised zs toks) :
    m.text a = .error e ↔ ∃ before n after, toks = before ++ .abbreviation n :: after ∧
      (∀ tok ∈ before, ∃ t, Means A (m.Abbreviates A) tok t) ∧ m.abbreviation A n = .error e := by
  have hmeans {tok : Token} {t : List Char} :
      meaning A (.ok (m.abbreviation A)) tok = .ok t ↔ Means A (m.Abbreviates A) tok t := by
    rw [← abbreviates_eq]
    exact meaning_eq_ok_iff
  have hmap : m.text a = .error e ↔ toks.mapM (meaning A (.ok (m.abbreviation A))) = .error e := by
    rw [text_of_tokenised hA hzs htoks]
    cases toks.mapM (meaning A (.ok (m.abbreviation A))) <;> simp
  rw [hmap, mapM_eq_error_iff]
  simp only [hmeans]
  constructor
  · rintro ⟨before, tok, after, rfl, hbefore, htok⟩
    cases tok with
    | abbreviation n => exact ⟨before, n, after, rfl, hbefore, htok⟩
    | space => cases htok
    | code zscii => cases htok
    | letter r z => cases htok
  · rintro ⟨before, n, after, rfl, hbefore, hn⟩
    exact ⟨before, .abbreviation n, after, rfl, hbefore, hn⟩

theorem text_malformed_iff (hA : Alphabets.ofMemory m = .ok A) (ha : a < 2 ^ 32) :
    (∃ why, m.text a = .error (.malformedText why)) ↔
      m.Unended a 4096 ∨ ∃ zs before n after, m.HasZchars a zs ∧ Tokenised zs (before ++ .abbreviation n :: after) ∧
        (∀ tok ∈ before, ∃ t, Means A (m.Abbreviates A) tok t) ∧ m.Flawed n := by
  constructor
  · rintro ⟨why, h⟩
    obtain ⟨zs, hzs⟩ | ⟨e, he⟩ := zchars_or_error m a
    · obtain ⟨toks, htoks⟩ := exists_tokenised zs
      obtain ⟨before, n, after, rfl, hbefore, hn⟩ := (text_eq_error_iff hA hzs htoks).1 h
      exact .inr ⟨zs, before, n, after, hzs, htoks, hbefore, abbreviation_malformed_iff.1 ⟨why, hn⟩⟩
    · rw [text_of_error hA he] at h
      cases h
      exact .inl (unended_of_malformed ha he)
  · rintro (hun | ⟨zs, before, n, after, hzs, htoks, hbefore, hn⟩)
    · exact ⟨_, text_of_unended hA hun⟩
    · obtain ⟨why, hwhy⟩ := abbreviation_malformed_iff (A := A).2 hn
      exact ⟨why, (text_eq_error_iff hA hzs htoks).2 ⟨before, n, after, rfl, hbefore, hwhy⟩⟩

theorem abbreviation_error_of_inside (hn : m.AbbreviationAt n a) (ha : m.Inside a) (h : m.abbreviation A n = .error e) :
    ∃ why, e = .malformedText why := by
  rw [abbreviation_of_at hn] at h
  obtain hun | ⟨zs, hzs⟩ := ha
  · rw [spellAt_of_unended hun] at h
    cases h
    exact ⟨_, rfl⟩
  · rw [spellAt_of_zchars hzs] at h
    exact ⟨_, (refers_of_spell h).1⟩

theorem text_malformed_of_inside {toks : List Token} (hA : Alphabets.ofMemory m = .ok A) (hzs : m.HasZchars a zs)
    (htoks : Tokenised zs toks) (hin : ∀ n, .abbreviation n ∈ toks → ∃ b, m.AbbreviationAt n b ∧ m.Inside b) :
    (∃ why, m.text a = .error (.malformedText why)) ↔ ∃ n, .abbreviation n ∈ toks ∧ m.Flawed n := by
  constructor
  · rintro ⟨why, h⟩
    obtain ⟨before, n, after, rfl, -, hn⟩ := (text_eq_error_iff hA hzs htoks).1 h
    exact ⟨n, by simp, abbreviation_malformed_iff.1 ⟨why, hn⟩⟩
  · rintro ⟨n, hmem, hflawed⟩
    cases htext : m.text a with
    | ok t =>
      rw [text_of_tokenised hA hzs htoks] at htext
      obtain ⟨texts, htexts, -⟩ := ok_of_map htext
      obtain ⟨t', ht'⟩ := exists_ok_of_mapM htexts hmem
      obtain ⟨why, hwhy⟩ := abbreviation_malformed_iff (A := A).2 hflawed
      cases hwhy.symm.trans ht'
    | error e =>
      obtain ⟨before, n', after, rfl, -, hn'⟩ := (text_eq_error_iff hA hzs htoks).1 htext
      obtain ⟨b, hb, hinside⟩ := hin n' (by simp)
      obtain ⟨why, rfl⟩ := abbreviation_error_of_inside hb hinside hn'
      exact ⟨why, rfl⟩

/-- The text of a string is that of the tokens of its Z-characters, which are determined. It is malformed
if it does not end within 4096 words, or if that holds of the string of an abbreviation met before any
other failure, or if such a string names an abbreviation; and where all strings lie in memory, if this
is so for any abbreviation at all. -/
theorem text_by_tokens (hA : Alphabets.ofMemory m = .ok A) (a : UInt32) :
    (∀ zs, ∃! toks, Tokenised zs toks) ∧
    (∀ t, m.text a.toNat = .ok t ↔ ∃ zs, m.HasZchars a.toNat zs ∧ Tells A (m.Abbreviates A) zs t) ∧
    ((∃ why, m.text a.toNat = .error (.malformedText why)) ↔
      m.Unended a.toNat 4096 ∨
        ∃ zs before n after, m.HasZchars a.toNat zs ∧ Tokenised zs (before ++ .abbreviation n :: after) ∧
          (∀ tok ∈ before, ∃ t, Means A (m.Abbreviates A) tok t) ∧ m.Flawed n) ∧
    ((∀ zs toks n, m.HasZchars a.toNat zs → Tokenised zs toks → .abbreviation n ∈ toks →
        ∃ b, m.AbbreviationAt n b ∧ m.Inside b) →
      ((∃ why, m.text a.toNat = .error (.malformedText why)) ↔
        m.Unended a.toNat 4096 ∨
          ∃ zs toks n, m.HasZchars a.toNat zs ∧ Tokenised zs toks ∧ .abbreviation n ∈ toks ∧ m.Flawed n)) := by
  refine ⟨fun zs => ?_, fun t => text_eq_ok_iff hA, text_malformed_iff hA a.toNat_lt, fun hin => ?_⟩
  · obtain ⟨toks, htoks⟩ := exists_tokenised zs
    exact ⟨toks, htoks, fun toks' htoks' => htoks'.unique htoks⟩
  · constructor
    · intro h
      obtain hun | ⟨zs, before, n, after, hzs, htoks, -, hn⟩ := (text_malformed_iff hA a.toNat_lt).1 h
      · exact .inl hun
      · exact .inr ⟨zs, _, n, hzs, htoks, by simp, hn⟩
    · rintro (hun | ⟨zs, toks, n, hzs, htoks, hmem, hn⟩)
      · exact ⟨_, text_of_unended hA hun⟩
      · exact (text_malformed_of_inside hA hzs htoks fun n => hin zs toks n hzs htoks).2 ⟨n, hmem, hn⟩

def abbreviatedStory : Memory :=
  -- Abbreviation 0 is `ab`, and abbreviation 1 names itself. At 76 stands a string with a chain of
  -- shifts, abbreviation 0, a ten-bit code and the start of another one, and at 84 one of
  -- abbreviation 1.
  ⟨#[3] ++ Array.replicate 24 0 ++ #[64] ++ Array.replicate 38 0 ++
    #[0, 36, 0, 37, 0, 0, 0, 0, 0x98, 0xE5, 0x84, 0x25, 0x14, 0x86, 0x04, 0x05, 0x18, 0x41, 0x94, 0xDF, 0x84, 0x25],
    by simp, by simp⟩

theorem text_by_tokens_abbreviated :
    Alphabets.ofMemory abbreviatedStory = .ok .standard ∧
      (∃ zs, abbreviatedStory.HasZchars 76 zs ∧
        Tells .standard (abbreviatedStory.Abbreviates .standard) zs ['A', 'a', 'b', 'A']) ∧
      (abbreviatedStory.Unended 84 4096 ∨
        ∃ zs before n after, abbreviatedStory.HasZchars 84 zs ∧
          Tokenised zs (before ++ .abbreviation n :: after) ∧
          (∀ tok ∈ before, ∃ t, Means .standard (abbreviatedStory.Abbreviates .standard) tok t) ∧
          abbreviatedStory.Flawed n) := by
  have hA : Alphabets.ofMemory abbreviatedStory = .ok .standard := by
    apply ok_of_toOption
    decide +kernel
  have htext : abbreviatedStory.text 76 = .ok ['A', 'a', 'b', 'A'] := by
    apply ok_of_toOption
    decide +kernel
  have hself : abbreviatedStory.text 84 = .error (.malformedText (.nestedAbbreviation 74)) := by rfl
  obtain ⟨-, hok, -⟩ := text_by_tokens hA 76
  obtain ⟨-, -, hmalformed, -⟩ := text_by_tokens hA 84
  exact ⟨hA, (hok _).1 htext, hmalformed.1 ⟨_, hself⟩⟩

end Memory

end ZMachine
