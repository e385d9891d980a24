import ZMachine.Proofs.Text.Extent

namespace ZMachine

theorem packWord_unpackWord (w : UInt16) :
    ∃ a b c, unpackWord w = [a, b, c] ∧ packWord (endsText w) a b c = w := by
  refine ⟨_, _, _, rfl, ?_⟩
  apply UInt16.toNat_inj.mp
  have hw : w.toNat < 65536 := w.toNat_lt
  simp only [toNat_packWord, endsText, Fin.val_ofNat, decide_eq_true_eq]
  split <;> omega

theorem unpackWord_ne_nil (w : UInt16) : unpackWord w ≠ [] := by simp [unpackWord]

theorem pack_cons (a b c : Zchar) {rest : List Zchar} (h : rest ≠ []) :
    pack (a :: b :: c :: rest) = packWord false a b c :: pack rest := by
  rw [pack]
  exact h

theorem pack_unpack {ws : List UInt16} (h : Terminated ws) : pack (ws.flatMap unpackWord) = ws := by
  induction h with
  | @last w hw =>
    obtain ⟨a, b, c, hu, hp⟩ := packWord_unpackWord w
    rw [hw] at hp
    simp only [List.flatMap_singleton, hu, pack, hp]
  | @more w ws hw hws ih =>
    obtain ⟨a, b, c, hu, hp⟩ := packWord_unpackWord w
    rw [hw] at hp
    have hrest : ws.flatMap unpackWord ≠ [] := by
      cases hws <;> simp [unpackWord_ne_nil]
    rw [List.flatMap_cons, hu]
    change pack (a :: b :: c :: ws.flatMap unpackWord) = w :: ws
    rw [pack_cons a b c hrest, hp, ih]

theorem Memory.wordCount_of_stores {m : Memory} {a : Nat} {ws : List UInt16} (h : m.Stores a ws)
    (hws : Terminated ws) (hlen : ws.length ≤ maxStringWords) : m.wordCount a = .ok ws.length := by
  have hwords : m.stringWords a = .ok ws := Memory.stringWords_iff.mpr ⟨h, hws, hlen⟩
  rw [wordCount, hwords]
  rfl

/-- Unpacking undoes packing up to the filling, packing undoes unpacking, and a string in memory is found to
be as long as it is. -/
theorem packed_strings :
    (∀ zs : List Zchar, zs ≠ [] → Terminated (pack zs) ∧
      ∃ k < 3, (pack zs).flatMap unpackWord = zs ++ List.replicate k 5) ∧
    (∀ ws : List UInt16, Terminated ws → pack (ws.flatMap unpackWord) = ws) ∧
    ∀ (m : Memory) (a : Nat) (ws : List UInt16), Terminated ws → ws.length ≤ maxStringWords →
      m.Stores a ws → m.wordCount a = .ok ws.length :=
  ⟨fun zs h => ⟨pack_terminated h, unpack_pack zs⟩, fun _ h => pack_unpack h,
    fun _ _ _ hws hlen h => Memory.wordCount_of_stores h hws hlen⟩

def briefText : Memory := ⟨⟨5 :: (List.replicate 63 0 ++ [0x12, 0x34, 0x9A, 0x52])⟩, by simp, by simp⟩

theorem packed_strings_brief :
    (∃ k < 3, (pack [6, 7, 8, 9]).flatMap unpackWord = [6, 7, 8, 9] ++ List.replicate k 5) ∧
      pack ([0x1234, 0x9A52].flatMap unpackWord) = [0x1234, 0x9A52] ∧ briefText.wordCount 64 = .ok 2 := by
  obtain ⟨unpacked, packed, counted⟩ := packed_strings
  have ended : Terminated [0x1234, 0x9A52] := .more rfl (.last rfl)
  have stored : briefText.Stores 64 [0x1234, 0x9A52] := ⟨rfl, rfl, trivial⟩
  exact ⟨(unpacked [6, 7, 8, 9] (by simp)).2, packed _ ended, counted briefText 64 _ ended (by decide) stored⟩

end ZMachine
